import Helmr.BlockFormat.InspectSpec

/-!
# Block format — certified packs

A set of packs is certified when each passes `inspectPack`, every link of its pages leads to a
certified pack of smaller rank that passes `checkNode` for the link, and every segment its pages
list passes `inspectSegment` under its key. Nothing is assumed about who wrote the objects.

`certify` is the traversal that checks this. Ranks are between one and six and fall along links, so
six nested inspections are enough for any store whatever (`certify_stable`).

Inspection takes the geometry of a node from the node, in isolation; the reader takes it from the
root and the path. `exists_holds` is where the two meet: along certified links the positions agree
level by level, so the inspected subtree spells some content and `RangeSpec` does the rest.
-/

namespace Helmr.BlockFormat

open Wire Fallible

variable (C : Crypto) (source : RangeSource) (scope : Bytes) (keys : Keys) (W : Set PackRef)

/-! ## Certified packs -/

/-- Everything the pages of a pack refer to has been checked. -/
structure Certified.Dependencies (ref : PackRef) (inspection : PackInspection) : Prop where
  children : ∀ page ∈ inspection.pages, ∀ child ∈ page.children,
    child.locator.pack ∈ W ∧ child.locator.pack.rank < ref.rank
      ∧ ∃ target, inspectPack C source scope keys child.locator.pack = .ok target
        ∧ target.checkNode child = .ok ()
  segments : ∀ page ∈ inspection.pages, ∀ segment ∈ page.segments,
    inspectSegment C source scope (keys.get segment.key) segment = .ok ()

def Certified : Prop :=
  ∀ ref ∈ W, ∃ inspection, inspectPack C source scope keys ref = .ok inspection
    ∧ Certified.Dependencies C source scope keys W ref inspection

/-- A link to a certified page that was accepted for it, in a root of its geometry. -/
structure Linked (shape : Root) (ref : NodeReference) : Prop where
  mem : ref.locator.pack ∈ W
  accepted : ∃ target, inspectPack C source scope keys ref.locator.pack = .ok target
    ∧ target.checkNode ref = .ok ()
  capacity : shape.capacity = ref.shape.capacity
  fanout : shape.fanout = ref.shape.fanout
  depth : shape.level = ref.shape.level

/-- The traversal that certifies a pack and everything below it. -/
def certify : (fuel : Nat) → PackRef → Result Unit
  | 0, _ => .error (.text "invalid pack rank")
  | fuel + 1, ref => do
    let inspection ← inspectPack C source scope keys ref
    inspection.pages.forM fun page => do
      page.children.forM fun child => do
        reject (child.locator.pack.rank ≥ ref.rank) (.text "invalid child rank")
        certify fuel child.locator.pack
        let target ← inspectPack C source scope keys child.locator.pack
        target.checkNode child
      page.segments.forM fun segment =>
        inspectSegment C source scope (keys.get segment.key) segment

variable {C source scope keys W}

theorem inspectPack_rank {ref : PackRef} (h : ref.rank < 1 ∨ ref.rank > 6) :
    inspectPack C source scope keys ref = .error (.text "invalid pack rank") := by
  rw [inspectPack, reject_true h, error_bind]

/-- **The traversal ends.** A pack of rank `r` needs no more than `r` nested inspections. -/
theorem certify_stable (fuel k : Nat) {ref : PackRef} (h : ref.rank ≤ fuel) :
    certify C source scope keys (fuel + k) ref = certify C source scope keys fuel ref := by
  induction fuel generalizing ref with
  | zero =>
    cases k with
    | zero => rfl
    | succ k =>
      rw [Nat.zero_add, certify, certify, inspectPack_rank (.inl (by omega)), error_bind]
  | succ fuel ih =>
    rw [show fuel + 1 + k = (fuel + k) + 1 by omega, certify, certify]
    congr 1
    funext inspection
    refine forM_congr fun page _ => ?_
    congr 1
    refine forM_congr fun child _ => ?_
    by_cases hrank : child.locator.pack.rank ≥ ref.rank
    · rw [reject_true hrank, error_bind, error_bind]
    · rw [ih (by omega)]

theorem certify_six (k : Nat) (ref : PackRef) :
    certify C source scope keys (6 + k) ref = certify C source scope keys 6 ref := by
  by_cases h : ref.rank ≤ 6
  · exact certify_stable 6 k h
  · rw [show 6 + k = (5 + k) + 1 by omega, certify, certify, inspectPack_rank (.inr (by omega)),
      error_bind, error_bind]

/-- Packs that are certified pass the traversal. -/
theorem certify_of_certified (hW : Certified C source scope keys W) (fuel : Nat) {ref : PackRef}
    (hmem : ref ∈ W) (hrank : ref.rank ≤ fuel) : certify C source scope keys fuel ref = .ok () := by
  induction fuel generalizing ref with
  | zero =>
    obtain ⟨inspection, hinspect, -⟩ := hW ref hmem
    rw [inspectPack_rank (.inl (by omega))] at hinspect
    cases hinspect
  | succ fuel ih =>
    obtain ⟨inspection, hinspect, hdeps⟩ := hW ref hmem
    rw [certify, hinspect, ok_bind, forM_eq_ok]
    intro page hpage
    have hchildren : (page.children.forM fun child => do
        reject (child.locator.pack.rank ≥ ref.rank) (Error.text "invalid child rank")
        certify C source scope keys fuel child.locator.pack
        let target ← inspectPack C source scope keys child.locator.pack
        target.checkNode child) = .ok () := by
      rw [forM_eq_ok]
      intro child hchild
      obtain ⟨hin, hlt, target, htarget, hcheck⟩ := hdeps.children page hpage child hchild
      rw [reject_false (by omega), ok_bind, ih hin (by omega), ok_bind, htarget, ok_bind, hcheck]
    rw [hchildren, ok_bind, forM_eq_ok]
    exact hdeps.segments page hpage

/-! ## Contents -/

/-- Contents given entry by entry are one content of the node. -/
theorem exists_glued (start span stop : Nat) {es : List Entry}
    (hsorted : es.Pairwise fun a b => a.slot < b.slot) (hnonneg : ∀ e ∈ es, 0 ≤ e.slot)
    (cs : Entry → Content) :
    ∃ c : Content, Sparse c start span stop es
      ∧ ∀ e ∈ es, ∀ p, (start + e.slot.toNat * span) * blockSize ≤ p →
          p < (start + e.slot.toNat * span + span) * blockSize → cs e p = c p := by
  let covers (blk : Nat) (e : Entry) : Bool :=
    start + e.slot.toNat * span ≤ blk ∧ blk < start + e.slot.toNat * span + span
  refine ⟨fun p => ((es.find? (covers (p / blockSize))).map fun e => cs e p).getD 0, ?_, ?_⟩
  · intro blk _ _ hno p hlo hhi
    have hblk : p / blockSize = blk :=
      Nat.div_eq_of_lt_le hlo hhi
    have hnone : es.find? (covers (p / blockSize)) = none := by
      rw [List.find?_eq_none, hblk]
      intro e he
      simpa [covers] using hno e he
    simp [hnone]
  · intro e he p hlo hhi
    have hcover : covers (p / blockSize) e = true := by
      simp only [covers, decide_eq_true_eq]
      exact ⟨(Nat.le_div_iff_mul_le (by decide)).mpr hlo, (Nat.div_lt_iff_lt_mul (by decide)).mpr hhi⟩
    obtain ⟨e', hfind⟩ := Option.isSome_iff_exists.mp
      (List.find?_isSome.mpr ⟨e, he, hcover⟩)
    have hcover' := List.find?_some hfind
    have he' := List.mem_of_find?_eq_some hfind
    -- two entries that cover one block are the same entry
    have hsame : e = e' := by
      refine slot_unique hsorted he he' ?_
      simp only [covers, decide_eq_true_eq] at hcover hcover'
      have h0 := hnonneg e he
      have h0' := hnonneg e' he'
      have key : ∀ x y : Nat, x < y → x * span + span ≤ y * span := fun x y hxy => by
        rw [← Nat.succ_mul]; exact Nat.mul_le_mul_right _ hxy
      rcases lt_trichotomy e.slot.toNat e'.slot.toNat with hlt | heq | hgt
      · have := key _ _ hlt; omega
      · omega
      · have := key _ _ hgt; omega
    simp [hfind, hsame]

theorem checkNode_ref_eq_ok {p : PackInspection} {ref : NodeReference} {u : Unit} :
    p.checkNode ref = .ok u ↔ ∃ page ∈ p.pages, page.locator = ref.locator
      ∧ page.locator.page.kind = nodeKind ∧ page.shape.capacity = ref.shape.capacity
      ∧ page.shape.fanout = ref.shape.fanout ∧ page.shape.level = ref.shape.level
      ∧ page.level = ref.level ∧ page.start = ref.start := by
  unfold PackInspection.checkNode
  split <;> simp_all

theorem checkRoot_eq_ok {p : PackInspection} {root : Locator} {capacity : Int} {u : Unit} :
    p.checkRoot root capacity = .ok u ↔ ∃ page ∈ p.pages, page.locator = root
      ∧ page.locator.page.kind = rootKind ∧ page.shape.capacity = capacity := by
  unfold PackInspection.checkRoot
  split <;> simp_all

/-- The segment of a leaf entry is in the leaf's table. -/
theorem Node.Checked.segmentOf_mem {n : Node} {shape : Root} {start : Nat} (h : n.Checked shape 0 start)
    {e : Entry} (he : e ∈ n.entries) :
    n.segmentOf e ∈ n.segments ∧ e.record < (n.segmentOf e).count := by
  obtain ⟨-, -, hleaf⟩ := h.entry e he
  rw [if_neg (by omega)] at hleaf
  obtain ⟨-, h0, hlt, -, hrecord⟩ := hleaf
  refine ⟨?_, hrecord⟩
  unfold Node.segmentOf
  rw [List.getD, List.getElem?_eq_getElem (by omega), Option.getD_some]
  exact List.getElem_mem _

section Links

variable {store : Store} (hW : Certified C store.source scope keys W) {shape : Root}
  (hvalid : validateRoot shape = .ok ()) {ref : NodeReference}
include hW hvalid

/-- A certified link reads as a node at the position the link gives it, and so do the links of that node;
its segments are certified. -/
theorem Linked.node (h : Linked C store.source scope keys W shape ref) :
    ∃ n, readNode C store.source scope keys ref.locator shape ref.level ref.start = .ok n
      ∧ (∀ s ∈ n.segments, inspectSegment C store.source scope (keys.get s.key) s = .ok ())
      ∧ ∀ link ∈ n.links n.shape, Linked C store.source scope keys W shape link := by
  obtain ⟨inspection, hinspect, hcheck⟩ := h.accepted
  obtain ⟨page, hpage, hloc, hkind, hpcap, hpfan, hplevel, hat, hstart⟩ := checkNode_ref_eq_ok.mp hcheck
  obtain ⟨raw, hobj, hfacts⟩ := inspectPack_pages hinspect
  obtain ⟨n, hnode⟩ := (hfacts page hpage).node (by rw [hkind]; decide)
  obtain ⟨inspection', hinspect', hdeps⟩ := hW _ h.mem
  cases hinspect.symm.trans hinspect'
  have hlocal := readNode_mono (extends_inspectedBytes hobj) hnode.read
  rw [hloc, hat, hstart] at hlocal
  have hcap := h.capacity.trans hpcap.symm
  have hfan := h.fanout.trans hpfan.symm
  have hlevel := h.depth.trans hplevel.symm
  refine ⟨n, readNode_reshape hlocal hcap hfan hlevel hvalid, ?_, fun link hlink => ?_⟩
  · rw [← hnode.segments]
    exact hdeps.segments page hpage
  · -- the links of the page are those inspection reports, in the page's own geometry
    have hshape : link.shape = n.shape := by
      obtain ⟨e, -, he⟩ := List.mem_filterMap.mp hlink
      obtain ⟨l, -, rfl⟩ := Option.map_eq_some_iff.mp he
      rfl
    rw [← hnode.shape] at hlink hshape
    rw [← hnode.children] at hlink
    obtain ⟨hin, -, htarget⟩ := hdeps.children page hpage link hlink
    exact ⟨hin, htarget, by rw [hshape, hcap], by rw [hshape, hfan], by rw [hshape, hlevel]⟩

/-- **A certified link spells some content.** Induction on the level of the link. -/
theorem exists_holds (hC : C.Lawful) (level : Nat) (h : Linked C store.source scope keys W shape ref)
    (hlevel : ref.level = level) :
    ∃ c, Tree.Holds C { source := store.source, scope, keys, shape } c level ref.locator ref.start := by
  induction level generalizing ref with
  | zero =>
    obtain ⟨n, hread, hsegments, -⟩ := h.node hW hvalid
    rw [hlevel] at hread
    have hchecked := (readNode_eq_ok.mp hread).2.1
    -- a leaf: inspection opened every record of its segments
    have hblocks : ∀ e : Entry, ∃ b : Bytes, e ∈ n.entries →
        readBlocks C store.source scope (keys.get (n.segmentOf e).key) (n.segmentOf e) e.record 1
          = .ok b ∧ b.length = blockSize := by
      intro e
      by_cases he : e ∈ n.entries
      · obtain ⟨hin, hrecord⟩ := hchecked.segmentOf_mem he
        obtain ⟨b, hb⟩ := readBlocks_of_inspectSegment hC (hsegments _ hin) hrecord
        exact ⟨b, fun _ => hb⟩
      · exact ⟨[], fun h => absurd h he⟩
    choose blocks hblocks using hblocks
    obtain ⟨c, hsparse, hc⟩ := exists_glued ref.start 1 (ref.start + stride shape.fanout 1)
      hchecked.sorted hchecked.slot_nonneg
      (fun e p => (blocks e).getD (p - (ref.start + e.slot.toNat) * blockSize) 0)
    refine ⟨c, n, hread, hsparse, fun e he => ?_⟩
    obtain ⟨hb, hlen⟩ := hblocks e he
    simp only [hb]
    refine congrArg Except.ok ?_
    rw [← window_getD (blocks e) ((ref.start + e.slot.toNat) * blockSize), hlen]
    refine window_congr fun p hlo hhi => hc e he p (by rwa [Nat.mul_one]) ?_
    rwa [Nat.mul_one, Nat.succ_mul]
  | succ level ih =>
    obtain ⟨n, hread, -, hlinks⟩ := h.node hW hvalid
    rw [hlevel] at hread
    have hchecked := (readNode_eq_ok.mp hread).2.1
    -- an inner node: the content of each child, glued together at the slots
    have hchild : ∀ e : Entry, ∃ c : Content, e ∈ n.entries → ∃ child, e.child = some child
        ∧ Tree.Holds C { source := store.source, scope, keys, shape } c level child
            (ref.start + e.slot.toNat * stride shape.fanout (level + 1 : Nat)) := by
      intro e
      by_cases he : e ∈ n.entries
      · obtain ⟨-, -, hinner⟩ := hchecked.entry e he
        rw [if_pos (by omega)] at hinner
        obtain ⟨⟨child, hsome, -, -⟩, -, -⟩ := hinner
        obtain ⟨c, hc⟩ := ih (hlinks _ (List.mem_filterMap.mpr ⟨e, he, by rw [hsome]; rfl⟩))
          (by rw [hchecked.level_eq]; push_cast; omega)
        refine ⟨c, fun _ => ⟨child, hsome, ?_⟩⟩
        have hfanout : n.shape.fanout = shape.fanout := hchecked.fanout
        simpa only [hchecked.start_eq, hchecked.level_eq, hfanout] using hc
      · exact ⟨fun _ => 0, fun h => absurd h he⟩
    choose cs hcs using hchild
    obtain ⟨c, hsparse, hc⟩ := exists_glued ref.start (stride shape.fanout (level + 1 : Nat))
      (ref.start + stride shape.fanout ((level + 1 : Nat) + 1)) hchecked.sorted hchecked.slot_nonneg cs
    refine ⟨c, n, hread, hsparse, fun e he => ?_⟩
    obtain ⟨child, hsome, hholds⟩ := hcs e he
    exact ⟨child, hsome, hholds.congr fun p hlo hhi => hc e he p hlo hhi⟩

end Links

end Helmr.BlockFormat
