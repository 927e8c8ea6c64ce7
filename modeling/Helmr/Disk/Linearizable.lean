import Helmr.Disk.WritableVersion
import Helmr.Lib.Outcome

/-!
# Disk — the writable version is a byte array

Whatever the interleaving, the logical content of a version changes only where a write or a trim
returns successfully, and there as requested; a read returns the content of the moment it took its
snapshot. `Inv` is what the steps keep: overlaid blocks are whole, a block fetched for a partial write
is the block of the tree it was fetched from, a tree is known by its address, and the capturing
caller knows the frozen batch and its base.

* `changedBlock_spec`, `commit_written`: a commit writes the requested range, block by block;
* `freeze_content`, `mergeBack_content`, `install_content`: no part of a capture changes the content;
* `step_content`: one step, by the `Inv` lemma for its kind;
* `readsFrom_snapshot`, `step_readsFrom`, `readsFrom_returned`: a read from its snapshot to its return.

The commit of a partial write looks its block up again, so the check for a stale snapshot has to
exclude one case only: that the fetched block was captured into a new tree meanwhile. The address of
the tree does that.
-/

namespace Helmr.Disk

open Wire BlockFormat Fallible Hoare Runs WritableVersion

/-! ## Overlays of whole blocks -/

/-- Every block of a map is a whole one. -/
def Whole (m : Changes) : Prop := ∀ b data, m.lookup b = some data → data.length = blockSize

theorem whole_empty : Whole ∅ := by
  intro b data h
  rw [AList.lookup_empty] at h
  cases h

section Overlay

variable {m m' : Changes} {c c' : Content} {b p : Nat}

theorem div_block (p : Nat) : p / blockSize * blockSize ≤ p ∧ p < (p / blockSize + 1) * blockSize :=
  ⟨Nat.div_mul_le_self _ _, Nat.lt_mul_of_div_lt (Nat.lt_succ_self _) (by decide)⟩

theorem overlay_eq_below (h : m.lookup (p / blockSize) = none) : overlay m c p = c p :=
  overlay_of_none h (div_block p).1 (div_block p).2

/-- Overlays with the same block at a position agree there. -/
theorem overlay_congr (h : m.lookup (p / blockSize) = m'.lookup (p / blockSize)) (hc : c p = c' p) :
    overlay m c p = overlay m' c' p := by
  unfold overlay
  cases hl : m'.lookup (p / blockSize) with
  | none => rw [h, hl]; exact hc
  | some data => rw [h, hl]

theorem overlay_empty : overlay ∅ c = c := by
  funext p
  exact overlay_eq_below (AList.lookup_empty _)

/-- A left-biased union overlays in two steps. -/
theorem overlay_union : overlay (m ∪ m') c = overlay m (overlay m' c) := by
  funext p
  by_cases hmem : p / blockSize ∈ m
  · have hunion : (m ∪ m').lookup (p / blockSize) = m.lookup (p / blockSize) := AList.lookup_union_left hmem
    obtain ⟨data, hdata⟩ := Option.isSome_iff_exists.mp (AList.lookup_isSome.mpr hmem)
    unfold overlay
    rw [hunion, hdata]
  · have hunion : (m ∪ m').lookup (p / blockSize) = m'.lookup (p / blockSize) :=
      AList.lookup_union_right hmem
    rw [overlay_eq_below (AList.lookup_eq_none.mpr hmem)]
    exact overlay_congr hunion rfl

theorem whole_union (hm : Whole m) (hm' : Whole m') : Whole (m ∪ m') := by
  intro b data h
  rcases AList.lookup_union_eq_some.mp h with h | ⟨-, h⟩
  · exact hm b data h
  · exact hm' b data h

theorem window_below (h : m.lookup b = none) :
    window (overlay m c) (b * blockSize) blockSize = window c (b * blockSize) blockSize := by
  apply window_congr
  intro p hlo hhi
  exact overlay_of_none h hlo (by rwa [Nat.succ_mul])

/-- A content with a given block of its own agrees with the block's overlay. -/
theorem overlay_eq_of_window (hm : Whole m) {data : Bytes} (h : m.lookup (p / blockSize) = some data)
    (hdata : data = window c' (p / blockSize * blockSize) blockSize) : overlay m c p = c' p := by
  have hwin : window (overlay m c) (p / blockSize * blockSize) blockSize
      = window c' (p / blockSize * blockSize) blockSize :=
    (window_overlay h (hm _ _ h)).trans hdata
  have hblock := div_block p
  rw [Nat.succ_mul] at hblock
  exact window_inj hwin hblock.1 hblock.2

theorem lookup_foldl_insert_of_notMem (changes : List (Nat × Bytes)) (m : Changes)
    (h : b ∉ changes.map Prod.fst) :
    (changes.foldl (fun m c => m.insert c.1 c.2) m).lookup b = m.lookup b := by
  induction changes generalizing m with
  | nil => rfl
  | cons c rest ih =>
    rw [List.map_cons, List.mem_cons, not_or] at h
    rw [List.foldl_cons, ih _ h.2, AList.lookup_insert_ne h.1]

theorem lookup_foldl_insert_of_mem (changes : List (Nat × Bytes)) (m : Changes) {data : Bytes}
    (hnodup : (changes.map Prod.fst).Nodup) (h : (b, data) ∈ changes) :
    (changes.foldl (fun m c => m.insert c.1 c.2) m).lookup b = some data := by
  induction changes generalizing m with
  | nil => cases h
  | cons c rest ih =>
    rw [List.map_cons, List.nodup_cons] at hnodup
    rw [List.foldl_cons]
    rcases List.mem_cons.mp h with rfl | h
    · rw [lookup_foldl_insert_of_notMem _ _ hnodup.1, AList.lookup_insert]
    · exact ih _ hnodup.2 h

end Overlay

section Version

variable {R : Type} {cfg : Config R} {d d' : WritableVersion R}

variable {b : Nat} {loaded : Changes} {r : Request} {offset : Int} {ctx : Result Unit}

/-- A block that is dirty or frozen is the content's. -/
theorem overlaid_eq_window (hdirty : Whole d.dirty) (hfrozen : Whole d.frozen) {data : Bytes}
    (h : d.overlaid b = some data) : data = window (d.content cfg) (b * blockSize) blockSize := by
  unfold overlaid at h
  unfold WritableVersion.content
  cases hd : d.dirty.lookup b with
  | some block =>
    rw [hd, Option.some_or, Option.some.injEq] at h
    rw [window_overlay hd (hdirty _ _ hd), h]
  | none =>
    rw [hd, Option.none_or] at h
    rw [window_below hd, window_overlay h (hfrozen _ _ h)]

/-- Any other block is the tree's. -/
theorem window_of_not_overlaid (h : d.overlaid b = none) :
    window (d.content cfg) (b * blockSize) blockSize
      = window (cfg.denotes d.tree.root) (b * blockSize) blockSize := by
  rw [overlaid, Option.or_eq_none_iff] at h
  unfold WritableVersion.content
  rw [window_below h.1, window_below h.2]

/-! ## Commits -/

/-- Only the reservation changed. -/
def OnlySink (d d' : WritableVersion R) : Prop := d' = { d with sink := d'.sink }

theorem OnlySink.content_eq (h : OnlySink d d') : d'.content cfg = d.content cfg := by
  rw [h]
  rfl

theorem length_request (r : Request) (h : 0 ≤ r.length) : (r.data.length : Int) = r.length := by
  cases r with
  | write p => rfl
  | trim n => simpa [Request.data, Request.length] using h

theorem request_slice (r : Request) {o lo hi : Nat} (hlo : o ≤ lo) (hle : lo ≤ hi)
    (hhi : hi ≤ o + r.data.length) :
    (match r with
      | .trim _ => List.replicate (hi - lo) 0
      | .write p => slice p (lo - o) (hi - lo))
      = window (fun p => r.data.getD (p - o) 0) lo (hi - lo) := by
  have hslice := slice_eq_window (n := hi - lo) hlo (by omega : lo + (hi - lo) ≤ o + r.data.length)
  cases r with
  | write p => exact hslice
  | trim n =>
    rw [← hslice]
    simp only [Request.data, slice, List.drop_replicate, List.take_replicate]
    congr 1
    simp only [Request.data, List.length_replicate] at hhi
    omega

/-- A commit starts from zeros where it covers the whole block, and from the newest copy elsewhere. -/
theorem sourceBlock_ok {lo hi : Nat} {source : Bytes} (h : d.sourceBlock loaded b lo hi = .ok source) :
    (lo = b * blockSize ∧ hi = b * blockSize + blockSize ∧ source = zeroBlock)
      ∨ (d.overlaid b).or (loaded.lookup b) = some source := by
  unfold sourceBlock at h
  split at h
  · rename_i hwhole
    exact .inl ⟨hwhole.1, hwhole.2, (Except.ok.inj h).symm⟩
  · right
    cases hs : (d.overlaid b).or (loaded.lookup b) with
    | none =>
      -- a missing block is a nil slice, shorter than a block
      rw [hs] at h
      exact absurd h (by rw [Option.getD_none]; exact nofun)
    | some data =>
      rw [hs, Option.getD_some] at h
      by_cases hlength : data.length = blockSize
      · rw [if_neg (not_not.mpr hlength)] at h
        rw [Except.ok.inj h]
      · rw [if_pos hlength] at h
        cases h

/-- **One block of a commit**: the block of the written content. -/
theorem changedBlock_spec {block : Bytes} (h0 : 0 ≤ offset) (hlen : 0 < r.length)
    (hfirst : firstBlock offset ≤ b) (hlast : b ≤ lastBlock offset r.length)
    (hsource : ∀ data, (d.overlaid b).or (loaded.lookup b) = some data →
      data = window (d.content cfg) (b * blockSize) blockSize)
    (h : d.changedBlock r offset loaded b = .ok block) :
    block = window (splice (d.content cfg) offset.toNat r.data) (b * blockSize) blockSize := by
  have hdata := length_request r hlen.le
  -- the requested range meets the block in `[lo, hi)`
  have hmeets : offset.toNat < b * blockSize + blockSize ∧ b * blockSize < offset.toNat + r.data.length := by
    have h1 := div_block offset.toNat
    have h2 := div_block (offset + r.length - 1).toNat
    have h3 : firstBlock offset * blockSize ≤ b * blockSize := Nat.mul_le_mul_right _ hfirst
    have h4 : b * blockSize ≤ lastBlock offset r.length * blockSize := Nat.mul_le_mul_right _ hlast
    rw [Nat.succ_mul] at h1
    unfold firstBlock lastBlock at *
    omega
  have hend : (offset + r.length).toNat = offset.toNat + r.data.length := by omega
  simp only [changedBlock, hend, bind_eq_ok] at h
  obtain ⟨source, hsrc, heq⟩ := h
  generalize hlo : max offset.toNat (b * blockSize) = lo at hsrc heq
  generalize hhi : min (offset.toNat + r.data.length) (b * blockSize + blockSize) = hi at hsrc heq
  -- outside the requested range the new block keeps the source's bytes
  have hkeep : ∃ g : Content, source = window g (b * blockSize) blockSize ∧
      ∀ p, b * blockSize ≤ p → p < b * blockSize + blockSize → ¬(lo ≤ p ∧ p < hi) →
        g p = d.content cfg p := by
    rcases sourceBlock_ok hsrc with ⟨hstart, hstop, hzero⟩ | hfound
    · refine ⟨fun _ => 0, hzero.trans (window_zeros _ _).symm, fun p hp1 hp2 hout => ?_⟩
      omega
    · exact ⟨d.content cfg, hsource source hfound, fun _ _ _ _ => rfl⟩
  obtain ⟨g, hwindow, hg⟩ := hkeep
  have hpatch : block = patch (window g (b * blockSize) blockSize) (lo - b * blockSize)
      (window (fun p => r.data.getD (p - offset.toNat) 0) lo (hi - lo)) := by
    rw [← request_slice r (by omega) (by omega) (by omega), ← hwindow]
    cases r <;> exact (Except.ok.inj heq).symm
  rw [hpatch, patch_window (by omega) (by omega)]
  apply window_congr
  intro p hp1 hp2
  show (if lo ≤ p ∧ p < lo + (hi - lo) then _ else _) = if _ then _ else _
  by_cases hin : lo ≤ p ∧ p < hi
  · rw [if_pos (by omega), if_pos (by omega)]
  · rw [if_neg (by omega), if_neg (by omega)]
    exact hg p hp1 hp2 hin

theorem bounds_eq_ok {length : Int} {u : Unit} :
    d.bounds cfg offset length = .ok u ↔ d.closed = false ∧ 0 ≤ offset ∧ 0 ≤ length
      ∧ length ≤ maxReadBytes ∧ offset ≤ cfg.logicalBytes - length := by
  simp only [bounds, bind_eq_ok, reject_eq_ok, exists_const, Bool.not_eq_true]
  push Not
  rfl

theorem mem_blockRange {first last : Nat} : b ∈ blockRange first last ↔ first ≤ b ∧ b ≤ last := by
  rw [blockRange, List.mem_range'_1]
  omega

theorem nodup_blockRange (first last : Nat) : (blockRange first last).Nodup := List.nodup_range'

/-- What a successful write or trim leaves. -/
structure Written (cfg : Config R) (d : WritableVersion R) (r : Request) (offset : Int)
    (d' : WritableVersion R) : Prop where
  start : 0 ≤ offset
  tree : d'.tree = d.tree
  frozen : d'.frozen = d.frozen
  whole : Whole d'.dirty
  content : d'.content cfg = splice (d.content cfg) offset.toNat r.data

/-- The blocks of a commit are those of its range. -/
theorem keys_of_changes {blocks : List Nat} {changes : List (Nat × Bytes)} (h : (blocks.mapM fun b => do
      let block ← d.changedBlock r offset loaded b
      Except.ok (b, block)) = .ok changes) : changes.map Prod.fst = blocks := by
  have := map_of_mapM (k := id) (g := Prod.fst) (fun b c hc => ?_) h
  · rwa [List.map_id] at this
  · obtain ⟨block, -, heq⟩ := bind_eq_ok.mp hc
    cases heq
    rfl

/-- **A commit writes exactly the requested range.** -/
theorem commit_written (hdirty : Whole d.dirty) (h0 : 0 ≤ offset) (hlen : 0 < r.length)
    (hsource : ∀ b data, (d.overlaid b).or (loaded.lookup b) = some data →
      data = window (d.content cfg) (b * blockSize) blockSize) {changes : List (Nat × Bytes)}
    (h : ((blockRange (firstBlock offset) (lastBlock offset r.length)).mapM fun b => do
      let block ← d.changedBlock r offset loaded b
      Except.ok (b, block)) = .ok changes) : Written cfg d r offset (d.commit changes) := by
  have hkeys := keys_of_changes h
  have hnodup : (changes.map Prod.fst).Nodup := by
    rw [hkeys]
    exact nodup_blockRange _ _
  -- each changed block is the block of the written content
  have hblock : ∀ b data, (b, data) ∈ changes →
      data = window (splice (d.content cfg) offset.toNat r.data) (b * blockSize) blockSize := by
    intro b data hmem
    obtain ⟨b', hb', hc⟩ := mem_of_mapM h _ hmem
    obtain ⟨block, hchanged, heq⟩ := bind_eq_ok.mp hc
    cases heq
    obtain ⟨hfirst, hlast⟩ := mem_blockRange.mp hb'
    exact changedBlock_spec h0 hlen hfirst hlast (hsource b) hchanged
  have hlookup : ∀ b, b ∈ blockRange (firstBlock offset) (lastBlock offset r.length) →
      (d.commit changes).dirty.lookup b
        = some (window (splice (d.content cfg) offset.toNat r.data) (b * blockSize) blockSize) := by
    intro b hb
    rw [← hkeys] at hb
    obtain ⟨⟨_, data⟩, hmem, rfl⟩ := List.mem_map.mp hb
    rw [← hblock _ data hmem]
    exact lookup_foldl_insert_of_mem changes d.dirty hnodup hmem
  have hother : ∀ b, b ∉ blockRange (firstBlock offset) (lastBlock offset r.length) →
      (d.commit changes).dirty.lookup b = d.dirty.lookup b := by
    intro b hb
    rw [← hkeys] at hb
    exact lookup_foldl_insert_of_notMem changes d.dirty hb
  have hwhole : Whole (d.commit changes).dirty := by
    intro b data hdata
    by_cases hb : b ∈ blockRange (firstBlock offset) (lastBlock offset r.length)
    · rw [hlookup b hb, Option.some.injEq] at hdata
      rw [← hdata, length_window]
    · rw [hother b hb] at hdata
      exact hdirty b data hdata
  refine ⟨h0, rfl, rfl, hwhole, ?_⟩
  funext p
  by_cases hb : p / blockSize ∈ blockRange (firstBlock offset) (lastBlock offset r.length)
  · exact overlay_eq_of_window hwhole (hlookup _ hb) rfl
  · have hsame : (d.commit changes).content cfg p = d.content cfg p := overlay_congr (hother _ hb) rfl
    rw [hsame]
    -- a position outside the blocks of the range is outside the range
    refine (if_neg ?_).symm
    rintro ⟨hlo, hhi⟩
    have hdata := length_request r hlen.le
    apply hb
    rw [mem_blockRange]
    exact ⟨Nat.div_le_div_right hlo, Nat.div_le_div_right (by omega)⟩

theorem reserve_onlySink (cfg : Config R) (first last : Nat) (d : WritableVersion R) :
    Outcome d (reserveRangeLocked cfg first last) fun _ t => OnlySink d t := by
  show OnlySink d (Act.from (effect _) d).2
  rw [from_effect]
  simp only
  split <;> rfl

/-- What a write that succeeds did: nothing for no bytes, and a commit of its blocks otherwise. -/
inductive Commits (d : WritableVersion R) (r : Request) (offset : Int) (loaded : Changes) :
    Int → WritableVersion R → Prop
  | nothing (h0 : 0 ≤ offset) (hzero : r.length = 0) : Commits d r offset loaded 0 d
  | blocks (h0 : 0 ≤ offset) (hlen : 0 < r.length) (sink : Sink) (changes : List (Nat × Bytes))
      (h : ((blockRange (firstBlock offset) (lastBlock offset r.length)).mapM fun b => do
        let block ← changedBlock { d with sink } r offset loaded b
        Except.ok (b, block)) = .ok changes) :
      Commits d r offset loaded r.length (commit changes { d with sink })

/-- **`writeLocked` commits, or changes nothing but the reservation.** -/
theorem writeLocked_commits {ctx' : Result Unit} :
    Outcome d (writeLocked cfg r offset loaded ctx ctx') fun result t => match result with
      | .ok n => Commits d r offset loaded n t
      | .error _ => OnlySink d t := by
  refine Outcome.reads_bind (fun _ _ => rfl) fun _ hbounds => ?_
  obtain ⟨-, h0, hlen, -⟩ := bounds_eq_ok.mp hbounds
  refine Outcome.attempt_bind (fun _ _ => rfl) fun _ _ => ?_
  split
  · exact Outcome.pure (.nothing h0 ‹_›)
  refine Outcome.reads_bind (fun _ _ => rfl) fun _ _ => ?_
  -- from here on the reservation may have changed
  refine Outcome.bind (reserve_onlySink cfg _ _ d) (fun _ _ h => h) fun _ t ht => ?_
  refine Outcome.reads_bind (fun _ _ => ht) fun changes h => ?_
  refine Outcome.attempt_bind (fun _ _ => ht) fun _ _ => ?_
  show Commits d r offset loaded r.length (t.commit changes)
  rw [ht] at h ⊢
  exact .blocks h0 (by omega) t.sink changes h

/-- The first critical section of a write commits, or leaves all but the reservation as it was. -/
theorem writeFirst_commits {ctx : Nat → Result Unit} :
    Outcome d (writeFirst cfg r offset ctx) fun result t => match result with
      | .ok (.inl n) => Commits d r offset ∅ n t
      | .ok (.inr _) => t = d
      | .error _ => OnlySink d t := by
  refine Outcome.reads_bind (fun _ _ => rfl) fun _ hbounds => ?_
  refine Outcome.attempt_bind (fun _ _ => rfl) fun _ _ => ?_
  split
  · exact Outcome.pure (.nothing (bounds_eq_ok.mp hbounds).2.1 ‹_›)
  refine Outcome.reads_bind (fun _ _ => rfl) fun missing _ => ?_
  split
  · exact Outcome.bind writeLocked_commits (fun _ _ h => h) fun _ _ h => Outcome.pure h
  · exact Outcome.pure rfl

theorem Commits.written {n : Int} (hdirty : Whole d.dirty) (hfrozen : Whole d.frozen)
    (hloaded : ∀ b data, loaded.lookup b = some data →
      data = window (cfg.denotes d.tree.root) (b * blockSize) blockSize) (h : Commits d r offset loaded n d') :
    Written cfg d r offset d' := by
  cases h with
  | nothing h0 hzero =>
    have hnil : r.data = [] := List.length_eq_zero_iff.mp (by have := length_request r (by omega); omega)
    exact ⟨h0, rfl, rfl, hdirty, by rw [hnil, splice_nil]⟩
  | blocks h0 hlen sink changes h =>
    have hwritten : Written cfg { d with sink } r offset (commit changes { d with sink }) :=
      commit_written (d := { d with sink }) hdirty h0 hlen (fun b data hb => ?_) h
    · exact ⟨h0, hwritten.tree, hwritten.frozen, hwritten.whole, hwritten.content⟩
    · -- an overlaid block is the content's; a fetched one is the tree's, and so the content's
      cases ho : d.overlaid b with
      | some block =>
        rw [show overlaid { d with sink } b = d.overlaid b from rfl, ho, Option.some_or,
          Option.some.injEq] at hb
        rw [← hb]
        exact overlaid_eq_window hdirty hfrozen ho
      | none =>
        rw [show overlaid { d with sink } b = d.overlaid b from rfl, ho, Option.none_or] at hb
        rw [hloaded b data hb]
        exact (window_of_not_overlaid ho).symm

/-- A first critical section that is the whole write has fetched nothing. -/
theorem Commits.written_first {n : Int} (hdirty : Whole d.dirty) (hfrozen : Whole d.frozen)
    (h : Commits d r offset ∅ n d') : Written cfg d r offset d' := by
  refine h.written hdirty hfrozen fun b data hb => ?_
  rw [AList.lookup_empty] at hb
  cases hb

/-! ## Captures -/

/-- A freeze moves the dirty blocks; it is refused, or not needed where there are none. -/
theorem cut_outcome :
    Outcome d (cut cfg ctx) fun result t => match result with
      | .ok (.inl root) => OnlySink d t ∧ root = d.tree.root ∧ d.dirty.entries = []
      | .ok (.inr frozen) => frozen = d.dirty ∧ t = { d with sink := t.sink, frozen := d.dirty, dirty := ∅ }
          ∧ d.dirty.entries ≠ []
      | .error _ => OnlySink d t := by
  refine Outcome.reads_bind (fun _ _ => rfl) fun _ _ => ?_
  refine Outcome.attempt_bind (fun _ _ => rfl) fun _ _ => ?_
  refine Outcome.reads_ok rfl ?_
  split
  · exact Outcome.pure ⟨rfl, rfl, List.length_eq_zero_iff.mp ‹_›⟩
  refine Outcome.bind (reserve_onlySink cfg 1 0 d) (fun _ _ h => h) fun _ t ht => ?_
  unfold Outcome
  rw [from_effect]
  cases t.sink.beginCapture with
  | error e => exact ht
  | ok sink =>
    simp only
    rw [ht]
    exact ⟨rfl, rfl, mt List.length_eq_zero_iff.mpr ‹_›⟩

/-- Merging a failed capture back keeps the content: newer blocks hid the older ones before too. -/
theorem mergeBack_content {batch : Changes} (hbatch : d.frozen = batch) :
    (d.mergeBack cfg batch).content cfg = d.content cfg := by
  have hsink := reserve_onlySink cfg 1 0
    { d with dirty := d.dirty ∪ batch, frozen := ∅, sink := d.sink.finishCapture }
  calc (d.mergeBack cfg batch).content cfg
      = overlay (d.dirty ∪ batch) (overlay ∅ (cfg.denotes d.tree.root)) := hsink.content_eq
    _ = overlay d.dirty (overlay batch (cfg.denotes d.tree.root)) := by rw [overlay_empty, overlay_union]
    _ = d.content cfg := by rw [← hbatch]; rfl

theorem mergeBack_fields (cfg : Config R) (d : WritableVersion R) (batch : Changes) :
    (d.mergeBack cfg batch).dirty = d.dirty ∪ batch ∧ (d.mergeBack cfg batch).frozen = ∅
      ∧ (d.mergeBack cfg batch).tree = d.tree := by
  have hsink := reserve_onlySink cfg 1 0
    { d with dirty := d.dirty ∪ batch, frozen := ∅, sink := d.sink.finishCapture }
  unfold mergeBack
  rw [hsink]
  exact ⟨rfl, rfl, rfl⟩

/-- Installing a root that denotes the frozen overlay keeps the content. -/
theorem install_content {batch : Changes} {root : R} {generation : Nat} (hbatch : d.frozen = batch)
    (hroot : cfg.denotes root = overlay batch (cfg.denotes d.tree.root)) :
    (d.install root generation).content cfg = d.content cfg := by
  show overlay d.dirty (overlay ∅ (cfg.denotes root)) = overlay d.dirty (overlay d.frozen _)
  rw [overlay_empty, hroot, hbatch]

/-- Freezing keeps the content where nothing is frozen yet. -/
theorem freeze_content {sink : Sink} (hempty : d.frozen = ∅) :
    WritableVersion.content cfg { d with sink, frozen := d.dirty, dirty := ∅ } = d.content cfg := by
  show overlay ∅ (overlay d.dirty (cfg.denotes d.tree.root)) = overlay d.dirty (overlay d.frozen _)
  rw [hempty, overlay_empty, overlay_empty]

end Version

/-! ## The invariant -/

section System

variable {R : Type} {cfg : Config R}

/-- A tree handed out by a version is told from the current one by its address. -/
def Known (d : WritableVersion R) (tree : Handle R) : Prop :=
  tree.pointer ≤ d.tree.pointer ∧ (tree.pointer = d.tree.pointer → tree.root = d.tree.root)

/-- What holds of caller `i`. Only the holder of the capture mutex has a batch. -/
def ThreadInv (cfg : Config R) (d : WritableVersion R) (capturer : Option Nat) (i : Nat) : Thread R → Prop
  | .loading _ _ tree _ _ blocks _ => capturer ≠ some i ∧ Known d tree
      ∧ ∀ b data, blocks.lookup b = some data →
        data = window (cfg.denotes tree.root) (b * blockSize) blockSize
  | .cutting => capturer = some i ∧ d.frozen = ∅
  | .encoding base batch _ _ => capturer = some i ∧ d.frozen = batch ∧ base = d.tree.root
  | .encoded batch _ outcome => capturer = some i ∧ d.frozen = batch
      ∧ ∀ root, outcome = .ok root → cfg.denotes root = overlay batch (cfg.denotes d.tree.root)
  | _ => capturer ≠ some i

structure Inv (cfg : Config R) (s : System R) : Prop where
  dirty : Whole s.shared.dirty
  frozen : Whole s.shared.frozen
  thread : ∀ i, ThreadInv cfg s.shared s.capturer i (s.threads i)
  free : s.capturer = none → s.shared.frozen = ∅

theorem Inv.opened (root : R) (stagedBytes : Int) : Inv cfg (System.opened root stagedBytes) :=
  ⟨whole_empty, whole_empty, fun _ => nofun, fun _ => rfl⟩

theorem Inv.at {s : System R} {i : Nat} {t : Thread R} (h : Inv cfg s) (hi : s.threads i = t) :
    ThreadInv cfg s.shared s.capturer i t :=
  hi ▸ h.thread i

variable {d' : WritableVersion R} {offset : Int} {length : Nat} {c : Content}

/-- Callers do not look at the dirty blocks or at the reservation. -/
theorem ThreadInv.congr {d : WritableVersion R} {capturer : Option Nat} {i : Nat} {t : Thread R}
    (h : ThreadInv cfg d capturer i t) (htree : d'.tree = d.tree) (hfrozen : d'.frozen = d.frozen) :
    ThreadInv cfg d' capturer i t := by
  cases t <;> simp only [ThreadInv, Known, htree, hfrozen] at h ⊢ <;> exact h

/-- A caller without the capture mutex only needs to know its tree. -/
theorem ThreadInv.release {d : WritableVersion R} {capturer capturer' : Option Nat} {i : Nat} {t : Thread R}
    (h : ThreadInv cfg d capturer i t) (hne : capturer ≠ some i) (hne' : capturer' ≠ some i)
    (hknown : ∀ tree, Known d tree → Known d' tree) : ThreadInv cfg d' capturer' i t := by
  cases t with
  | loading r offset tree generation missing blocks readErr => exact ⟨hne', hknown tree h.2.1, h.2.2⟩
  | cutting => exact absurd h.1 hne
  | encoding base batch generation attempted => exact absurd h.1 hne
  | encoded batch generation outcome => exact absurd h.1 hne
  | idle | reading | writing => exact hne'

variable {s s' : System R} {i : Nat} {t : Thread R} {d : WritableVersion R}

/-- A step of one caller that leaves the tree and the frozen batch. -/
theorem Inv.move (h : Inv cfg s) (hdirty : Whole d.dirty) (htree : d.tree = s.shared.tree)
    (hfrozen : d.frozen = s.shared.frozen) (hself : ThreadInv cfg s.shared s.capturer i t) :
    Inv cfg (s.move i t d) := by
  refine ⟨hdirty, by rw [show (s.move i t d).shared.frozen = _ from hfrozen]; exact h.frozen, fun j => ?_,
    fun hnone => hfrozen.trans (h.free hnone)⟩
  apply ThreadInv.congr _ htree hfrozen
  show ThreadInv cfg s.shared s.capturer j (Function.update s.threads i t j)
  by_cases hj : j = i
  · rw [hj, Function.update_self]
    exact hself
  · rw [Function.update_of_ne hj]
    exact h.thread j

/-- A step of the caller that holds the capture mutex, or takes it while it is free. -/
theorem Inv.moveCapture (h : Inv cfg s) (capturer : Option Nat) (hdirty : Whole d.dirty)
    (hfrozen : Whole d.frozen) (hheld : ∀ j ≠ i, s.capturer ≠ some j) (hnext : ∀ j ≠ i, capturer ≠ some j)
    (hknown : ∀ tree, Known s.shared tree → Known d tree) (hself : ThreadInv cfg d capturer i t)
    (hfree : capturer = none → d.frozen = ∅) : Inv cfg { s.move i t d with capturer } := by
  refine ⟨hdirty, hfrozen, fun j => ?_, hfree⟩
  show ThreadInv cfg d capturer j (Function.update s.threads i t j)
  by_cases hj : j = i
  · rw [hj, Function.update_self]
    exact hself
  · rw [Function.update_of_ne hj]
    exact (h.thread j).release (hheld j hj) (hnext j hj) hknown

/-- The change of the content that a step shows: none, unless a write or a trim succeeds. -/
def Label.Effect (c c' : Content) : Label → Prop
  | .writeReturned _ offset data (.ok _) => 0 ≤ offset ∧ c' = splice c offset.toNat data
  | _ => c' = c

theorem known_of_tree (h : d'.tree = d.tree) (tree : Handle R) (hk : Known d tree) : Known d' tree := by
  unfold Known at hk ⊢
  rwa [h]

theorem other_of_capturer (hi : s.capturer = some i) (j : Nat) (hj : j ≠ i) : s.capturer ≠ some j := fun heq =>
  hj (Option.some.inj (heq.symm.trans hi))

/-- A write that commits. -/
theorem Inv.wrote (h : Inv cfg s) {r : Request} (hi : s.capturer ≠ some i)
    (hd : Written cfg s.shared r offset d) : Inv cfg (s.move i .idle d) ∧ 0 ≤ offset
      ∧ d.content cfg = splice (s.content cfg) offset.toNat r.data :=
  ⟨h.move hd.whole hd.tree hd.frozen hi, hd.start, hd.content⟩

/-- A critical section that leaves all but the reservation. -/
theorem Inv.reserved (h : Inv cfg s) (ht : ThreadInv cfg s.shared s.capturer i t) (hd : OnlySink s.shared d) :
    Inv cfg (s.move i t d) ∧ d.content cfg = s.content cfg := by
  refine ⟨h.move ?_ ?_ ?_ ht, hd.content_eq⟩
  all_goals rw [hd]
  exact h.dirty

/-- A fetched block is the tree's. -/
theorem Inv.loaded (h : Inv cfg s) {r : Request} {tree : Handle R} {generation index : Nat} {rest : List Nat}
    {blocks : Changes} (hi : s.threads i = .loading r offset tree generation (index :: rest) blocks none) :
    Inv cfg (s.move i (.loading r offset tree generation rest
      (blocks.insert index (window (cfg.denotes tree.root) (index * blockSize) blockSize)) none) s.shared) := by
  obtain ⟨hcap, hknown, hblocks⟩ := h.at hi
  refine h.move h.dirty rfl rfl ⟨hcap, hknown, fun b data hb => ?_⟩
  by_cases hb' : b = index
  · rw [hb', AList.lookup_insert, Option.some.injEq] at hb
    rw [← hb, hb']
  · rw [AList.lookup_insert_ne hb'] at hb
    exact hblocks b data hb

/-- A capture that ends before its cut. -/
theorem Inv.uncut (h : Inv cfg s) (hi : s.threads i = .cutting) (hd : OnlySink s.shared d) :
    Inv cfg { s.move i .idle d with capturer := none } ∧ d.content cfg = s.content cfg := by
  obtain ⟨hcap, hempty⟩ := h.at hi
  refine ⟨h.moveCapture none ?_ ?_ (other_of_capturer hcap) (fun _ _ => nofun) (known_of_tree ?_) nofun fun _ => ?_,
    hd.content_eq⟩
  all_goals rw [hd]
  · exact h.dirty
  · exact h.frozen
  · exact hempty

/-- The cut of a capture. -/
theorem Inv.froze (h : Inv cfg s) (hi : s.threads i = .cutting)
    (hd : d = { s.shared with sink := d.sink, frozen := s.shared.dirty, dirty := ∅ }) :
    Inv cfg (s.move i (.encoding d.tree.root s.shared.dirty d.generation 0) d)
      ∧ d.content cfg = s.content cfg := by
  obtain ⟨hcap, hempty⟩ := h.at hi
  rw [hd]
  refine ⟨?_, freeze_content hempty⟩
  exact h.moveCapture s.capturer whole_empty h.dirty (other_of_capturer hcap) (other_of_capturer hcap)
    (fun _ hk => hk) ⟨hcap, rfl, rfl⟩ fun hnone => by rw [hcap] at hnone; cases hnone

section Encoded

variable {batch : Changes} {generation : Nat}

/-- A capture that failed merges its batch back. -/
theorem Inv.merged (h : Inv cfg s) {e : Error} (hi : s.threads i = .encoded batch generation (.error e)) :
    Inv cfg { s.move i .idle (s.shared.mergeBack cfg batch) with capturer := none }
      ∧ (s.shared.mergeBack cfg batch).content cfg = s.content cfg := by
  obtain ⟨hcap, hbatch, -⟩ := h.at hi
  obtain ⟨hdirty, hfrozen, htree⟩ := mergeBack_fields cfg s.shared batch
  refine ⟨h.moveCapture none ?_ ?_ (other_of_capturer hcap) (fun _ _ => nofun) (known_of_tree htree) nofun
    fun _ => hfrozen, mergeBack_content hbatch⟩
  · rw [hdirty]
    exact whole_union h.dirty (hbatch ▸ h.frozen)
  · rw [hfrozen]
    exact whole_empty

/-- A capture that succeeded installs its root. -/
theorem Inv.installed (h : Inv cfg s) {root : R} (hi : s.threads i = .encoded batch generation (.ok root)) :
    Inv cfg { s.move i .idle (s.shared.install root generation) with capturer := none }
      ∧ (s.shared.install root generation).content cfg = s.content cfg := by
  obtain ⟨hcap, hbatch, hroot⟩ := h.at hi
  refine ⟨h.moveCapture none h.dirty whole_empty (other_of_capturer hcap) (fun _ _ => nofun) (fun tree hk => ?_) nofun
    fun _ => rfl, install_content hbatch (hroot root rfl)⟩
  -- the new tree has an address no handle has
  have hle := hk.1
  exact ⟨Nat.le_succ_of_le hle, fun heq => absurd heq (by show ¬_ = s.shared.tree.pointer + 1; omega)⟩

end Encoded

/-- **One step** keeps the invariant and changes the content as its label shows. -/
theorem step_content {l : Label} (h : Inv cfg s) (hstep : Step cfg s l s') :
    Inv cfg s' ∧ l.Effect (s.content cfg) (s'.content cfg) := by
  cases hstep with
  | readRefused => exact ⟨h, rfl⟩
  | readSnapshot hi | readOverlay hi | readTree hi | readFailed hi | readDone hi | writeCalled _ _ hi
  | loadFailed hi | captureStored hi =>
    have hthread := h.at hi
    exact ⟨h.move h.dirty rfl rfl hthread, rfl⟩
  | writeReadFailed hi | writeStale hi => exact ⟨h.move h.dirty rfl rfl (h.at hi).1, rfl⟩
  | writeFirstDone hi hrun => exact h.wrote (h.at hi) (Commits.written_first h.dirty h.frozen (writeFirst_commits.of_from hrun))
  | writeFirstFailed hi hrun =>
    have hthread := h.at hi
    exact h.reserved hthread (writeFirst_commits.of_from hrun)
  | @writeFetches i r offset ctx missing d hi hrun =>
    have hd : d = s.shared := writeFirst_commits.of_from hrun
    rw [hd]
    refine ⟨h.move h.dirty rfl rfl ⟨h.at hi, ⟨le_rfl, fun _ => rfl⟩, fun b data hb => ?_⟩, rfl⟩
    rw [AList.lookup_empty] at hb
    cases hb
  | loadBlock hi => exact ⟨h.loaded hi, rfl⟩
  | @writeSecond i r offset tree generation blocks ctx ctx' outcome d hi hfresh hrun =>
    obtain ⟨hcap, hknown, hblocks⟩ := h.at hi
    -- the address is that of the current tree, so the fetched blocks are its blocks
    have hroot : tree.root = s.shared.tree.root := hknown.2 (by push Not at hfresh; exact hfresh.2.symm)
    rw [hroot] at hblocks
    cases outcome with
    | ok n => exact h.wrote hcap (Commits.written h.dirty h.frozen hblocks (writeLocked_commits.of_from hrun))
    | error e => exact h.reserved hcap (writeLocked_commits.of_from hrun)
  | @captureLocked i hi hfree =>
    exact ⟨h.moveCapture (some i) h.dirty h.frozen (fun j _ => by rw [hfree]; exact nofun)
      (fun j hj heq => hj (Option.some.inj heq).symm) (fun _ hk => hk) ⟨rfl, h.free hfree⟩ nofun, rfl⟩
  | captureUnchanged hi hrun => exact h.uncut hi (cut_outcome.of_from hrun).1
  | captureRefused hi hrun => exact h.uncut hi (cut_outcome.of_from hrun)
  | captureFroze hi hrun =>
    obtain ⟨rfl, hd, -⟩ := cut_outcome.of_from hrun
    exact h.froze hi hd
  | captureStoreFull hi | captureFailed hi =>
    obtain ⟨hcap, hbatch, -⟩ := h.at hi
    exact ⟨h.move h.dirty rfl rfl ⟨hcap, hbatch, nofun⟩, rfl⟩
  | captureEncoded hi hroot =>
    obtain ⟨hcap, hbatch, rfl⟩ := h.at hi
    refine ⟨h.move h.dirty rfl rfl ⟨hcap, hbatch, fun new hnew => ?_⟩, rfl⟩
    cases hnew
    exact hroot
  | captureMerged hi => exact h.merged hi
  | captureInstalled hi => exact h.installed hi
  | creditDeleted | recount => exact ⟨⟨h.dirty, h.frozen, fun j => (h.thread j).congr rfl rfl, h.free⟩, rfl⟩

/-! ## Reads -/

/-- What a reader has read is a window of `c`, and its snapshot has the rest of that window. -/
def ReadsFrom (cfg : Config R) (c : Content) : Thread R → Prop
  | .reading offset length tree overlay pos result =>
    Whole overlay ∧ offset ≤ pos ∧ pos ≤ offset + length ∧ result = window c offset (pos - offset)
      ∧ ∀ p, offset ≤ p → p < offset + length → BlockFormat.overlay overlay (cfg.denotes tree.root) p = c p
  | _ => True

/-- A loop over blocks that inserts what `get` has of each. -/
theorem lookup_foldl_insert_some (get : Nat → Option Bytes) {step : Changes → Nat → Changes}
    (hsome : ∀ m b block, get b = some block → step m b = m.insert b block)
    (hnone : ∀ m b, get b = none → step m b = m) {b : Nat} (blocks : List Nat) (m : Changes) :
    (blocks.foldl step m).lookup b = if b ∈ blocks then (get b).or (m.lookup b) else m.lookup b := by
  induction blocks generalizing m with
  | nil => rfl
  | cons x rest ih =>
    have hstep : (step m x).lookup b = if b = x then (get b).or (m.lookup b) else m.lookup b := by
      cases hget : get x with
      | none => rw [hnone m x hget]; split_ifs with hb <;> simp [*]
      | some block =>
        rw [hsome m x block hget]
        split_ifs with hb
        · rw [hb, AList.lookup_insert, hget, Option.some_or]
        · rw [AList.lookup_insert_ne hb]
    rw [List.foldl_cons, ih, hstep]
    by_cases hb : b = x <;> by_cases hmem : b ∈ rest <;> simp [hb, hmem, ← Option.or_assoc]

/-- The overlay of a snapshot has the overlaid blocks of its range and no others. -/
theorem lookup_snapshotOverlay {b : Nat} (hlength : length ≠ 0) :
    (d.snapshotOverlay offset length).lookup b
      = if b ∈ blockRange (firstBlock offset) (lastBlock offset length) then d.overlaid b else none := by
  unfold snapshotOverlay
  rw [if_neg hlength]
  refine (lookup_foldl_insert_some d.overlaid (fun m b block hget => ?_) (fun m b hget => ?_) _ ∅).trans ?_
  · simp only [hget]
  · simp only [hget]
  · rw [AList.lookup_empty, Option.or_none]

theorem whole_snapshotOverlay (hdirty : Whole d.dirty) (hfrozen : Whole d.frozen) (offset : Int)
    (length : Nat) : Whole (d.snapshotOverlay offset length) := by
  intro b data h
  by_cases hlength : length = 0
  · rw [snapshotOverlay, if_pos hlength, AList.lookup_empty] at h
    cases h
  rw [lookup_snapshotOverlay hlength] at h
  split at h
  · rcases Option.or_eq_some_iff.mp h with h | ⟨-, h⟩
    · exact hdirty b data h
    · exact hfrozen b data h
  · cases h

/-- An unchanged span ends inside the request and meets no block of the overlay. -/
theorem spanEnd_spec (overlay : Changes) (finish fuel : Nat) {stop : Nat} (hstop : stop ≤ finish) :
    stop ≤ spanEnd overlay finish fuel stop ∧ spanEnd overlay finish fuel stop ≤ finish
      ∧ ∀ p, stop ≤ p → p < spanEnd overlay finish fuel stop → overlay.lookup (p / blockSize) = none := by
  induction fuel generalizing stop with
  | zero => exact ⟨le_rfl, hstop, fun p hlo hhi => absurd hhi (not_lt.mpr hlo)⟩
  | succ fuel ih =>
    unfold spanEnd
    split_ifs with hlt hsome
    · exact ⟨le_rfl, hstop, fun p hlo hhi => absurd hhi (not_lt.mpr hlo)⟩
    · have hblock := div_block stop
      obtain ⟨h1, h2, h3⟩ := ih (Nat.min_le_left finish ((stop / blockSize + 1) * blockSize))
      refine ⟨by omega, h2, fun p hlo hhi => ?_⟩
      by_cases hp : p < min finish ((stop / blockSize + 1) * blockSize)
      · -- still in the block of `stop`
        have hsame : p / blockSize = stop / blockSize :=
          Nat.div_eq_of_lt_le (hblock.1.trans hlo) (by omega)
        rw [hsame]
        exact Option.not_isSome_iff_eq_none.mp hsome
      · exact h3 p (by omega) hhi
    · exact ⟨le_rfl, hstop, fun p hlo hhi => absurd hhi (not_lt.mpr hlo)⟩

/-- A snapshot starts a read of the content of that moment. -/
theorem readsFrom_snapshot (h : Inv cfg s) (hstep : Step cfg s (.snapshot i) s') :
    ReadsFrom cfg (s.content cfg) (s'.threads i) := by
  cases hstep with
  | @readSnapshot _ offset length hi hbounds =>
    rw [System.threads_move_self]
    refine ⟨whole_snapshotOverlay h.dirty h.frozen offset length, le_rfl, Nat.le_add_right _ _, ?_,
      fun p hlo hhi => ?_⟩
    · rw [Nat.sub_self, window_zero]
    · have h0 := (bounds_eq_ok.mp hbounds).2.1
      have hmem : p / blockSize ∈ blockRange (firstBlock offset) (lastBlock offset length) := by
        rw [mem_blockRange]
        exact ⟨Nat.div_le_div_right hlo, Nat.div_le_div_right (by omega)⟩
      have hlookup : (s.shared.snapshotOverlay offset length).lookup (p / blockSize)
          = s.shared.overlaid (p / blockSize) := (lookup_snapshotOverlay (by omega)).trans (if_pos hmem)
      cases ho : s.shared.overlaid (p / blockSize) with
      | some block =>
        exact overlay_eq_of_window (whole_snapshotOverlay h.dirty h.frozen offset length)
          (hlookup.trans ho) (overlaid_eq_window h.dirty h.frozen ho)
      | none =>
        have hwin : window (cfg.denotes s.shared.tree.root) (p / blockSize * blockSize) blockSize
            = window (s.content cfg) (p / blockSize * blockSize) blockSize := (window_of_not_overlaid ho).symm
        have hblock := div_block p
        rw [Nat.succ_mul] at hblock
        rw [overlay_eq_below (hlookup.trans ho)]
        exact window_inj hwin hblock.1 hblock.2

/-- Taking the next bytes of the snapshot. -/
theorem ReadsFrom.advance {offset pos stop : Nat} {tree : Handle R} {overlay : Changes} {result chunk : Bytes}
    (h : ReadsFrom cfg c (.reading offset length tree overlay pos result)) (hlo : pos ≤ stop)
    (hhi : stop ≤ offset + length)
    (hchunk : chunk = window (BlockFormat.overlay overlay (cfg.denotes tree.root)) pos (stop - pos)) :
    ReadsFrom cfg c (.reading offset length tree overlay stop (result ++ chunk)) := by
  obtain ⟨hwhole, hpos, -, hresult, hsame⟩ := h
  refine ⟨hwhole, hpos.trans hlo, hhi, ?_, hsame⟩
  have hwindow : chunk = window c pos (stop - pos) := by
    rw [hchunk]
    exact window_congr fun p h1 h2 => hsame p (by omega) (by omega)
  rw [hresult, hwindow, show stop - offset = (pos - offset) + (stop - pos) by omega, window_add,
    Nat.add_sub_cancel' hpos]

theorem ReadsFrom.move {j : Nat} (h : ReadsFrom cfg c (s.threads i)) (hself : j = i → ReadsFrom cfg c t) :
    ReadsFrom cfg c (Function.update s.threads j t i) := by
  by_cases hj : i = j
  · rw [hj, Function.update_self]
    exact hself hj.symm
  · rwa [Function.update_of_ne hj]

/-- **Every other step**, of this caller or of another one, keeps the read on its snapshot. -/
theorem step_readsFrom {l : Label} (h : ReadsFrom cfg c (s.threads i)) (hl : l ≠ .snapshot i)
    (hstep : Step cfg s l s') : ReadsFrom cfg c (s'.threads i) := by
  cases hstep with
  | @readSnapshot j offset length hj hbounds =>
    exact h.move fun heq => absurd (congrArg Label.snapshot heq) hl
  | @readOverlay j offset length pos tree overlay result block hj hpos hblock stop hstop =>
    refine h.move fun heq => ?_
    rw [← heq, hj] at h
    have hdiv := div_block pos
    have hmod := Nat.mod_add_div pos blockSize
    rw [Nat.mul_comm] at hmod
    rw [Nat.succ_mul] at hdiv hstop
    have hwin := window_overlay hblock (h.1 _ _ hblock) (c := cfg.denotes tree.root)
    refine h.advance (by omega) (by omega) ?_
    rw [← hwin, slice_window (by omega), show pos / blockSize * blockSize + pos % blockSize = pos by omega]
  | @readTree j offset length pos tree overlay result hj hpos hblock stop hstop =>
    refine h.move fun heq => ?_
    rw [← heq, hj] at h
    have hdiv := div_block pos
    obtain ⟨h1, h2, h3⟩ := spanEnd_spec overlay (offset + length) (offset + length)
      (Nat.min_le_left (offset + length) ((pos / blockSize + 1) * blockSize))
    rw [← hstop] at h1 h2 h3
    refine h.advance (by omega) h2 (window_congr fun p hlo hhi => ?_)
    refine (overlay_eq_below ?_).symm
    -- either still in the first block or in one the span has looked at
    by_cases hp : p < min (offset + length) ((pos / blockSize + 1) * blockSize)
    · rw [Nat.div_eq_of_lt_le (hdiv.1.trans hlo) (by omega)]
      exact hblock
    · exact h3 p (by omega) (by omega)
  | readRefused | creditDeleted | recount => exact h
  | _ => exact h.move fun _ => trivial

/-- A finished read is the window of its range. -/
theorem readsFrom_returned {data : Bytes} (h : ReadsFrom cfg c (s.threads i))
    (hstep : Step cfg s (.readReturned i offset length (.ok data)) s') :
    data = window c offset.toNat length := by
  cases hstep with
  | @readDone _ offset _ pos tree overlay _ hi hpos =>
    rw [hi] at h
    obtain ⟨-, hlo, hhi, hresult, -⟩ := h
    rw [hresult, Int.toNat_natCast, show pos - offset = length by omega]

/-- **The writable version is a linearizable byte array.** From any state of any interleaving, one more
step changes the logical content only where it completes a successful write or trim, and there it
writes the requested bytes to the requested range; and a read that takes its snapshot here returns the
logical content of this state, whatever happens before it returns. -/
theorem writableVersion_linearizable (cfg : Config R) {root : R} {stagedBytes : Int} {trace : List Label}
    {s : System R} (hrun : Run (Step cfg) (System.opened root stagedBytes) trace s) :
    (∀ l s', Step cfg s l s' → l.Effect (s.content cfg) (s'.content cfg))
      ∧ ∀ i after s₁ s₂ s₃ offset length data, Step cfg s (.snapshot i) s₁ → Run (Step cfg) s₁ after s₂ →
        Label.snapshot i ∉ after → Step cfg s₂ (.readReturned i offset length (.ok data)) s₃ →
        data = window (s.content cfg) offset.toNat length := by
  have hinv : Inv cfg s :=
    hrun.invariant (Inv cfg) (fun _ _ _ h hstep => (step_content h hstep).1) (Inv.opened root stagedBytes)
  refine ⟨fun l s' hstep => (step_content hinv hstep).2, ?_⟩
  intro i after s₁ s₂ s₃ offset length data hsnap hafter hnone hdone
  refine readsFrom_returned ?_ hdone
  apply hafter.invariant_of (· ≠ .snapshot i) (fun u => ReadsFrom cfg (s.content cfg) (u.threads i))
  · exact fun t l u hl h hstep => step_readsFrom h hl hstep
  · exact readsFrom_snapshot hinv hsnap
  · exact fun l hl heq => hnone (heq ▸ hl)

end System

/-! ## A run -/

/-- Two zero blocks, with room for four dirty ones. -/
def demoDisk : Config Unit :=
  { denotes := fun _ _ => 0, logicalBytes := 8192, limit := 4, budget := fun _ => 0 }

def demoCalled : System Unit :=
  (System.opened () 0).move 0 (.writing (.write (List.replicate 4096 7)) 0) (System.opened () 0).shared

def demoWrite : Result (Int ⊕ List Nat) × WritableVersion Unit :=
  Act.from (writeFirst demoDisk (.write (List.replicate 4096 7)) 0 fun _ => .ok ()) demoCalled.shared

def demoWritten : System Unit := demoCalled.move 0 .idle demoWrite.2

theorem demoWritten_run : Run (Step demoDisk) (System.opened () 0)
    [.internal, .writeReturned 0 0 (List.replicate 4096 7) (.ok 4096)] demoWritten := by
  have hfst : demoWrite.1 = .ok (.inl 4096) := by decide +kernel
  have hrun : demoWrite = (.ok (.inl 4096), demoWrite.2) := by rw [← hfst]
  have hcalled : Step demoDisk (System.opened () 0) .internal demoCalled := .writeCalled _ 0 rfl
  exact (Run.nil.snoc hcalled).snoc (.writeFirstDone (System.threads_move_self ..) hrun)

theorem demoWritten_bounds : demoWritten.shared.bounds demoDisk 5 (1 : Nat) = .ok () := by decide +kernel

theorem demoWritten_overlay : ∃ block, (demoWritten.shared.snapshotOverlay 5 1).lookup 0 = some block
    ∧ slice block 5 1 = [7] := by
  have hany : ((demoWritten.shared.snapshotOverlay 5 1).lookup 0).any (slice · 5 1 = [7]) = true := by
    decide +kernel
  simpa [Option.any_eq_true] using hany

/-- A writer fills the first block, then a reader takes a byte of it. -/
theorem writableVersion_linearizable_demo : ∃ s₁ s₂ s₃,
    Step demoDisk demoWritten (.snapshot 1) s₁ ∧ Run (Step demoDisk) s₁ [.internal] s₂
      ∧ Step demoDisk s₂ (.readReturned 1 5 1 (.ok [7])) s₃
      ∧ [7] = window (demoWritten.content demoDisk) 5 1 := by
  obtain ⟨block, hblock, hseven⟩ := demoWritten_overlay
  have hsnap := @Step.readSnapshot Unit demoDisk demoWritten 1 5 1 rfl demoWritten_bounds
  have hread := @Step.readOverlay Unit demoDisk _ 1 5 1 5 demoWritten.shared.tree _ [] block
    (System.threads_move_self demoWritten 1 _ demoWritten.shared) (by decide) hblock 6 (by decide)
  rw [show [] ++ slice block (5 % blockSize) (6 - 5) = [7] from hseven] at hread
  generalize hs₂ : System.move _ 1 (.reading 5 1 _ _ 6 [7]) _ = s₂ at hread
  have hdone : Step demoDisk s₂ (.readReturned 1 5 1 (.ok [7])) _ :=
    .readDone (hs₂ ▸ System.threads_move_self ..) (by decide)
  have hafter := Run.nil.snoc hread
  exact ⟨_, s₂, _, hsnap, hafter, hdone,
    (writableVersion_linearizable demoDisk demoWritten_run).2 1 _ _ s₂ _ 5 1 _ hsnap hafter (by simp) hdone⟩

end Helmr.Disk
