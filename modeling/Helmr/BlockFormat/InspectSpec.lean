import Helmr.BlockFormat.Inspect
import Helmr.BlockFormat.RangeSpec

/-!
# Block format — what inspection establishes

* `inspectPack_pages`: each page of an inspected pack lies in the pack and reads from the pack's own bytes as a
  root, or as a node at the position the inspection reports (`PageFacts`, from page to page by
  `inspectPages_facts`). The bytes were those of the store (`inspectionBytes_store`), so the page reads from
  the store as well (`extends_inspectedBytes`).
* `readNode_reshape`: the position is that of the page itself; a reader comes with its own root.
* `readBlocks_of_inspectSegment`: every frame of an inspected segment reads.
-/

namespace Helmr.BlockFormat

open Wire Fallible

variable {C : Crypto} {source : RangeSource} {scope : Bytes} {keys : Keys}

/-! ## Pages -/

theorem inspectRoot_eq_ok {loc : Locator} {p : PageInspection} :
    inspectRoot C source scope keys loc = .ok p ↔
      ∃ shape, readRoot C source scope keys loc = .ok shape ∧
        p = { locator := loc, shape, level := -1, start := 0, segments := []
              children := shape.index.toList.map fun index =>
                { locator := index, shape, level := shape.level, start := 0 } } := by
  simp only [inspectRoot, bind_eq_ok, Except.ok.injEq]
  exact ⟨fun ⟨s, hs, hp⟩ => ⟨s, hs, hp.symm⟩, fun ⟨s, hs, hp⟩ => ⟨s, hs, hp.symm⟩⟩

/-- A node page at the position its inspection reports. -/
structure NodePage (C : Crypto) (source : RangeSource) (scope : Bytes) (keys : Keys)
    (p : PageInspection) (n : Node) : Prop where
  read : readNode C source scope keys p.locator p.shape p.level p.start = .ok n
  shape : p.shape = n.shape
  children : p.children = n.links p.shape
  segments : p.segments = n.segments
  segment_valid : ∀ s ∈ n.segments, ValidSegment scope s

theorem inspectNode_ok {loc : Locator} {b : Bytes} {p : PageInspection}
    (h : inspectNode C source scope keys loc b = .ok p) :
    p.locator = loc ∧ ∃ n, NodePage C source scope keys p n := by
  simp only [inspectNode, bind_eq_ok, reject_eq_ok, exists_const] at h
  obtain ⟨decoded, -, -, n, hread, hsegments, heq⟩ := h
  cases heq
  push Not at hsegments
  have hcheck := (readNode_eq_ok.mp hread).2.1
  refine ⟨rfl, n, ?_, ?_, rfl, rfl, hsegments⟩
  · simpa only [hcheck.level_eq, hcheck.start_eq] using hread
  · unfold Node.shape
    rw [hcheck.capacity, hcheck.fanout]
    rfl

/-- What the inspection of a pack knows about one of its pages. -/
structure PageFacts (C : Crypto) (source : RangeSource) (scope : Bytes) (keys : Keys) (ref : PackRef)
    (p : PageInspection) : Prop where
  pack : p.locator.pack = ref
  root : p.locator.page.kind = rootKind → inspectRoot C source scope keys p.locator = .ok p
  node : p.locator.page.kind ≠ rootKind → ∃ n, NodePage C source scope keys p n

/-- The loop over a directory. Induction on the pages still to come. -/
theorem inspectPages_facts {ref : PackRef} {pages : List Ref} {offset finish : Int} {seen : List Ref}
    {ps : List PageInspection}
    (h : inspectPages C source scope keys ref offset seen pages = .ok (ps, finish)) :
    ∀ p ∈ ps, PageFacts C source scope keys ref p := by
  induction pages generalizing offset seen ps with
  | nil =>
    cases h
    simp
  | cons page rest ih =>
    simp only [inspectPages, bind_eq_ok, reject_eq_ok, exists_const] at h
    obtain ⟨-, plain, -, inspected, hinspected, ⟨more, last⟩, hrest, heq⟩ := h
    cases heq
    refine List.forall_mem_cons.mpr ⟨?_, ih hrest⟩
    unfold inspectPage at hinspected
    by_cases hkind : page.kind = rootKind
    · rw [if_pos hkind] at hinspected
      obtain ⟨shape, -, heq⟩ := inspectRoot_eq_ok.mp hinspected
      have hloc : inspected.locator = { pack := ref, page, offset } := by rw [heq]
      exact ⟨by rw [hloc], fun _ => by rw [hloc]; exact hinspected, fun hne => by
        rw [hloc] at hne; exact absurd hkind hne⟩
    · rw [if_neg hkind] at hinspected
      obtain ⟨hloc, hnode⟩ := inspectNode_ok hinspected
      exact ⟨by rw [hloc], fun heq => by rw [hloc] at heq; exact absurd heq hkind, fun _ => hnode⟩

/-- The ranges of inspected bytes are those of the stored object. -/
theorem extends_inspectedBytes {store : Store} {ref : PackRef} {raw : Bytes}
    (h : store.object ref.digest = some raw) : Extends (inspectedBytes ref raw) store.source := by
  intro d s o n b hb
  unfold inspectedBytes at hb
  split at hb
  · cases hb
  · rename_i hcond
    push Not at hcond
    obtain ⟨rfl, rfl, ho, hn, hfit⟩ := hcond
    cases hb
    unfold Store.source
    rw [h]
    simp only
    rw [if_neg (by push Not; exact ⟨rfl, ho, hn, hfit⟩)]

/-- An object is inspected whole, and under its digest. -/
theorem inspectionBytes_store {store : Store} {d : Digest} {size : Int} {raw : Bytes}
    (h : inspectionBytes C store.source d size = .ok raw) :
    store.object d = some raw ∧ size = raw.length := by
  simp only [inspectionBytes, bind_eq_ok, reject_eq_ok, exists_const, Store.source] at h
  obtain ⟨hbound, body, hbody, hid, heq⟩ := h
  cases heq
  cases hobj : store.object d with
  | none => simp [hobj] at hbody
  | some obj =>
    simp only [hobj] at hbody
    split at hbody
    · cases hbody
    · rename_i hcond
      cases hbody
      push Not at hcond hid hbound
      have hsize : size = obj.length := hcond.1
      have hall : (slice obj (0 : Int).toNat size.toNat).take (size + 1).toNat = obj := by
        rw [hsize, Int.toNat_zero, Int.toNat_natCast, slice_zero_length,
          List.take_of_length_le (by omega)]
      exact ⟨by rw [hall], by rw [hall]; exact hsize⟩

/-- **An inspected pack's pages read from the store it came from.** -/
theorem inspectPack_pages {store : Store} {ref : PackRef} {inspection : PackInspection}
    (h : inspectPack C store.source scope keys ref = .ok inspection) :
    ∃ raw, store.object ref.digest = some raw
      ∧ ∀ p ∈ inspection.pages, PageFacts C (inspectedBytes ref raw) scope keys ref p := by
  simp only [inspectPack, bind_eq_ok, reject_eq_ok, exists_const] at h
  obtain ⟨-, raw, hraw, -, -, dir, -, -, ⟨pages, finish⟩, hpages, -, heq⟩ := h
  cases heq
  exact ⟨raw, (inspectionBytes_store hraw).1, inspectPages_facts hpages⟩

/-! ## Positions -/

/-- `ReadNode` uses a root's geometry only, so any valid root of the same geometry will do. -/
theorem readNode_reshape {l : Locator} {shape shape' : Root} {level : Int} {start : Nat} {n : Node}
    (h : readNode C source scope keys l shape level start = .ok n)
    (hcap : shape'.capacity = shape.capacity) (hfan : shape'.fanout = shape.fanout)
    (hlevel : shape'.level = shape.level) (hvalid : validateRoot shape' = .ok ()) :
    readNode C source scope keys l shape' level start = .ok n := by
  obtain ⟨hpos, hcheck, hpage⟩ := readNode_eq_ok.mp h
  refine readNode_eq_ok.mpr ⟨?_, ?_, hpage⟩
  · exact ⟨hvalid, hpos.level_nonneg, hlevel ▸ hpos.level_le, hcap ▸ hpos.start_lt,
      hfan ▸ hpos.aligned, hpos.kind, hpos.rank⟩
  · refine ⟨hcap ▸ hcheck.capacity, hfan ▸ hcheck.fanout, hcheck.level_eq, hcheck.start_eq,
      hfan ▸ hcheck.entries_le, hfan ▸ hcheck.segments_le, hcheck.sorted, hcheck.slot_nonneg, ?_,
      hcheck.inner, hcheck.canonical⟩
    intro e he
    have hentry := hcheck.entry e he
    unfold Entry.Checked at hentry ⊢
    rwa [hcap, hfan]

/-! ## Segments -/

theorem inspectFrames_ok {key : Bytes} {ref : Ref} {stored : Bytes} (left i : Nat) {stream rest : Bytes}
    (h : inspectFrames C scope key ref stored i left stream = .ok rest) :
    ∀ j < left, ∃ data,
      openBlock C scope key ref (i + j) stored (slice stream (j * frameSize) frameSize) = .ok data := by
  induction left generalizing i stream with
  | zero => simp
  | succ left ih =>
    simp only [inspectFrames, bind_eq_ok, reject_eq_ok, exists_const] at h
    obtain ⟨-, data, hopen, hrest⟩ := h
    intro j hj
    cases j with
    | zero => exact ⟨data, by simpa [slice] using hopen⟩
    | succ j =>
      obtain ⟨next, hnext⟩ := ih (i + 1) hrest j (by omega)
      refine ⟨next, ?_⟩
      rw [show i + 1 + j = i + (j + 1) by omega] at hnext
      rw [← hnext, Nat.succ_mul, Nat.add_comm (j * frameSize), slice, slice, List.drop_drop]

/-- **Every frame of an inspected segment reads.** -/
theorem readBlocks_of_inspectSegment (hC : C.Lawful) {store : Store} {key : Bytes} {r : Ref}
    (h : inspectSegment C store.source scope key r = .ok ()) {ordinal : Nat} (hord : ordinal < r.count) :
    ∃ b, readBlocks C store.source scope key r ordinal 1 = .ok b ∧ b.length = blockSize := by
  simp only [inspectSegment, bind_eq_ok, reject_eq_ok, exists_const, header_eq_ok] at h
  obtain ⟨_, ⟨hctx, rfl⟩, hgeo, body, hbody, hlen, rest, hframes, -, -⟩ := h
  push Not at hgeo
  obtain ⟨hkey, hkind, hsize⟩ := hgeo
  unfold Store.source at hbody
  cases hobj : store.object r.digest with
  | none => simp [hobj] at hbody
  | some raw =>
    simp only [hobj] at hbody
    split at hbody
    · cases hbody
    · rename_i hcond
      push Not at hcond
      cases hbody
      have hall : (slice raw (0 : Int).toNat r.size.toNat).take (r.size + 1).toNat = raw := by
        rw [hcond.1, Int.toNat_zero, Int.toNat_natCast, slice_zero_length,
          List.take_of_length_le (by omega)]
      rw [hall] at hframes
      obtain ⟨data, hdata⟩ := inspectFrames_ok _ _ hframes ordinal hord
      have hdrop : slice (raw.drop (headerBytes scope r).length) (ordinal * frameSize) frameSize
          = slice raw ((headerBytes scope r).length + ordinal * frameSize) frameSize := by
        rw [slice, slice, List.drop_drop]
      rw [Nat.zero_add, hdrop] at hdata
      refine ⟨data, readBlocks_store.mpr ⟨⟨hctx, hkey, hkind, Nat.one_pos, hord, by decide, hsize⟩, raw,
        hobj, hcond.1, (openFrames_one hC).mpr ?_⟩, length_openBlock hC hdata⟩
      simpa [slice] using hdata

end Helmr.BlockFormat
