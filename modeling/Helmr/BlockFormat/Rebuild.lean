import Helmr.BlockFormat.Leaf

/-!
# Block format — rebuilding the changed paths

`update` follows the base where it has nodes and plans new ones on the changed paths. `Planned` is what a planned node
promises: a leaf is ready to be published, and an inner node links, slot by slot, to a planned child or to a subtree
of the base that already has the new content.

* `baseNode_spec`: what the node read from the base tells, or its absence; `BaseNode.slot` is that for one slot;
* `update_leaf`: a leaf takes the new location of a changed block and the old one of any other;
* `keepNode_spec`: a node joins its level, or is dropped and leaves holes;
* `SlotReady`, `SlotLoop`: the state of the loop over the slots of an inner node.

The induction over the tree is `update_spec`.
-/

namespace Helmr.BlockFormat

open Wire Wire.Json Fallible Hoare

/-! ## States of a rebuild -/

/-- Nodes join their level at its end. -/
def Levels.Le (a b : Levels) : Prop := ∀ level, a level <+: b level

section Definitions

variable (C : Crypto) (K : Catalog) (shape : Root) (c : Content)

/-- The base below a link: its subtree, or nothing but holes. -/
def BaseHolds (level : Nat) (old : Option Locator) (start : Nat) : Prop :=
  match old with
  | none => ∀ blk, start ≤ blk → blk < start + stride shape.fanout ((level : Int) + 1) → Hole c blk
  | some l => K.Holds C shape c level l start

/-- The node a rebuild starts from. -/
structure BaseNode (level start : Nat) (n : Node) : Prop where
  at_position : n.At shape level start
  sorted : n.entries.Pairwise fun a b => a.slot < b.slot
  nonneg : ∀ e ∈ n.entries, 0 ≤ e.slot
  bound : ∀ e ∈ n.entries, start + e.slot.toNat * stride shape.fanout level < blockCount shape.capacity
  inner : 0 < level → n.segments = [] ∧ ∀ e ∈ n.entries, e.segment = 0 ∧ e.record = 0
  spelled : K.Spelled C shape c level start n

/-- A link of an inner node: to a planned node, by its index, or to a subtree of the base. -/
def LinkReady (below : Nat → Nat → Prop) (level start : Nat) (e : Entry) : Option Nat → Prop
  | some index => below index start
  | none => ∃ l, e.child = some l ∧ K.Holds C shape c level l start

/-- An inner node whose links are still to be resolved. `below` says what an index of the level
below stands for. -/
structure InnerReady (below : Nat → Nat → Prop) (level start : Nat) (d : DirectNode) : Prop where
  fits : Fits shape (level + 1) start
  at_position : d.node.At shape (level + 1) start
  segments : d.node.segments = []
  entries_le : d.node.entries.length ≤ shape.fanout.toNat
  sorted : d.node.entries.Pairwise fun a b => a.slot < b.slot
  slot : ∀ e ∈ d.node.entries, 0 ≤ e.slot ∧ e.slot < shape.fanout
    ∧ start + e.slot.toNat * stride shape.fanout (level + 1 : Nat) < blockCount shape.capacity
  plain : ∀ e ∈ d.node.entries, e.segment = 0 ∧ e.record = 0
  child : ∀ e ∈ d.node.entries, LinkReady C K shape c below level
    (start + e.slot.toNat * stride shape.fanout (level + 1 : Nat)) e (d.children.lookup e.slot)
  sparse : Sparse c start (stride shape.fanout (level + 1 : Nat))
    (start + stride shape.fanout ((level + 1 : Nat) + 1)) d.node.entries

/-- The node `index` of a level is planned for the position `start`. -/
def Planned (levels : Levels) : (level index start : Nat) → Prop
  | 0, index, start => ∃ d, (levels 0)[index]? = some d ∧ d.children = []
      ∧ NodeReady C K shape c 0 start d.node
  | level + 1, index, start => ∃ d, (levels (level + 1))[index]? = some d ∧ d.node.entries ≠ []
      ∧ InnerReady C K shape c (Planned levels level) level start d

def AllPlanned (levels : Levels) : Prop :=
  ∀ level index, index < (levels level).length → ∃ start, Planned C K shape c levels level index start

/-- The outcome of rebuilding a subtree. -/
def Rebuilt (levels : Levels) (level start : Nat) : Option Nat → Prop
  | none => ∀ blk, start ≤ blk → blk < start + stride shape.fanout ((level : Int) + 1) → Hole c blk
  | some index => Planned C K shape c levels level index start

/-- A slot of an inner node under reconstruction that has its new content. -/
def SlotReady (level start span : Nat) (acc : Slots) (slot : Nat) : Prop :=
  match acc.entries slot with
  | none => ∀ blk, start + slot * span ≤ blk → blk < start + slot * span + span → Hole c blk
  | some e => e.slot = slot ∧ e.segment = 0 ∧ e.record = 0
      ∧ start + slot * span < blockCount shape.capacity
      ∧ LinkReady C K shape c (Planned C K shape c acc.levels level) level (start + slot * span) e
        (acc.children.lookup (slot : Int))

/-- The state of the slot loop before slot `k`. -/
structure SlotLoop (n : Node) (level start span k : Nat) (levels : Levels) (acc : Slots) : Prop where
  ready : ∀ slot < k, SlotReady C K shape c level start span acc slot
  entries : ∀ slot ≥ k, acc.entries (slot : Nat) = slotEntries n (slot : Nat)
  children : ∀ slot ≥ k, acc.children.lookup ((slot : Nat) : Int) = none
  le : levels.Le acc.levels
  planned : AllPlanned C K shape c acc.levels

end Definitions

variable {C : Crypto} {scope : Bytes} {keys : Keys} {K : Catalog} {shape : Root} {c c' : Content}

/-! ## Changed contents -/

/-- The content `c` with whole blocks replaced. -/
def overlay (changes : Changes) (c : Content) : Content := fun p =>
  match changes.lookup (p / blockSize) with
  | some data => data.getD (p % blockSize) 0
  | none => c p

variable {changes : Changes} {b : Nat} {values : Values} {level start : Nat} {n : Node}
  {changed : List Nat}

theorem overlay_of_none {p : Nat} (h : changes.lookup b = none) (hlo : b * blockSize ≤ p)
    (hhi : p < (b + 1) * blockSize) : overlay changes c p = c p := by
  have hdiv : p / blockSize = b := Nat.div_eq_of_lt_le hlo hhi
  simp only [overlay]
  rw [hdiv, h]

theorem window_overlay {data : Bytes} (h : changes.lookup b = some data) (hlen : data.length = blockSize) :
    window (overlay changes c) (b * blockSize) blockSize = data := by
  have hdata := window_getD data (b * blockSize)
  rw [hlen] at hdata
  refine Eq.trans (window_congr fun p hlo hhi => ?_) hdata
  have hdiv : p / blockSize = b := Nat.div_eq_of_lt_le hlo (by rw [Nat.succ_mul]; exact hhi)
  have hmod : p % blockSize = p - b * blockSize := by
    rw [← hdiv, Nat.mod_eq_sub_div_mul]
  simp only [overlay]
  rw [hmod, hdiv, h]

/-- Where the new data of a changed block is: in a record, unless it is all zero. -/
def Located (K : Catalog) (changes : Changes) (values : Values) (b : Nat) : Prop :=
  match values b with
  | none => (changes.lookup b).getD [] = zeroBlock
  | some v => ∃ blocks raw, Item.segment v.segment blocks raw ∈ K
      ∧ blocks[v.record]? = some ((changes.lookup b).getD []) ∧ (changes.lookup b).getD [] ≠ zeroBlock

theorem Located.holds {data : Bytes} (h : Located K changes values b)
    (hdata : changes.lookup b = some data) (hlen : data.length = blockSize) :
    LocationHolds K (overlay changes c) b (values b) := by
  have hwin := window_overlay (c := c) hdata hlen
  unfold Located at h
  cases hv : values b with
  | none =>
    rw [hv, hdata] at h
    exact hole_iff_window.mpr (hwin.trans h)
  | some v =>
    rw [hv, hdata] at h
    obtain ⟨blocks, raw, hin, hblock, hne⟩ := h
    exact ⟨blocks, raw, hin, by rwa [hwin], fun hhole => hne (hwin.symm.trans (hole_iff_window.mp hhole))⟩

/-! ## Subtrees of the base -/

/-- A location constrains the content on its block only. -/
theorem LocationHolds.congr {loc : Option BlockLocation} (h : LocationHolds K c b loc)
    (hcc : ∀ p, b * blockSize ≤ p → p < (b + 1) * blockSize → c p = c' p) : LocationHolds K c' b loc := by
  cases loc with
  | none => exact Hole.congr h hcc
  | some v =>
    obtain ⟨blocks, raw, hin, hblock, hdata⟩ := h
    refine ⟨blocks, raw, hin, hblock.trans (congrArg some (window_congr fun p hlo hhi => hcc p hlo ?_)),
      fun hhole => hdata (hhole.congr fun p hlo hhi => (hcc p hlo hhi).symm)⟩
    rwa [Nat.succ_mul]

/-- A cataloged subtree constrains the content on its own blocks only. -/
theorem Catalog.Holds.congr (hC : C.Lawful) (hK : K.Sound C scope keys) {l : Locator}
    (h : K.Holds C shape c level l start) (hcc : ∀ p, start * blockSize ≤ p →
      p < (start + stride shape.fanout ((level : Int) + 1)) * blockSize → c p = c' p) :
    K.Holds C shape c' level l start := by
  have hrange : ∀ {k : Nat} {l : Locator} {s : Nat} {n : Node}, K.PageAt C l (.node n) → n.At shape k s →
      ∀ e ∈ n.entries, s + e.slot.toNat * stride shape.fanout k + stride shape.fanout k
        ≤ s + stride shape.fanout ((k : Int) + 1) := by
    intro k l s n hpage hat e he
    have hchecked := (NodeSound.checked (hpage.placed hC hK).sound)
    rw [hat.level_eq, hat.start_eq] at hchecked
    have := hchecked.entry_range he
    rwa [show n.shape.fanout = shape.fanout from hat.fanout] at this
  induction level generalizing l start with
  | zero =>
    obtain ⟨n, hpage, hat, hne, hleaf⟩ := h
    refine ⟨n, hpage, hat, hne, hleaf.sparse.congr hcc, fun e he => ?_⟩
    have hin := hrange hpage hat e he
    simp only [show stride shape.fanout ((0 : Nat) : Int) = 1 from rfl, Nat.mul_one] at hin
    have hold : LocationHolds K c (start + e.slot.toNat) (some ⟨n.segmentOf e, e.record⟩) := hleaf.record e he
    refine hold.congr fun p hlo hhi => hcc p ?_ ?_
    · exact (Nat.mul_le_mul_right _ (Nat.le_add_right _ _)).trans hlo
    · exact hhi.trans_le (Nat.mul_le_mul_right _ hin)
  | succ level ih =>
    obtain ⟨n, hpage, hat, hne, hinner⟩ := h
    refine ⟨n, hpage, hat, hne, hinner.sparse.congr hcc, fun e he => ?_⟩
    obtain ⟨child, hchild, hbelow⟩ := hinner.child e he
    refine ⟨child, hchild, ih hbelow fun p hlo hhi => hcc p ?_ ?_⟩
    · exact (Nat.mul_le_mul_right _ (Nat.le_add_right _ _)).trans hlo
    · exact hhi.trans_le (Nat.mul_le_mul_right _ (hrange hpage hat e he))

/-- **The node a rebuild starts from** is the one the catalog has, or an empty one over holes. -/
theorem baseNode_spec (hK : K.Readable C scope keys)
    (hvalid : validateRoot shape = .ok ()) {old : Option Locator}
    (hbase : BaseHolds C K shape c level old start)
    (h : baseNode C (K.store C).source scope keys shape old level start = .ok n) :
    BaseNode C K shape c level start n := by
  cases old with
  | none =>
    cases h
    -- without a node all blocks below are holes
    have hsparse : ∀ span, Sparse c start span (start + stride shape.fanout ((level : Int) + 1)) [] :=
      fun _ blk hlo hhi _ => hbase blk hlo hhi
    refine ⟨⟨rfl, rfl, rfl, rfl⟩, List.Pairwise.nil, by simp, by simp, fun _ => ⟨rfl, by simp⟩, ?_⟩
    cases level with
    | zero => exact ⟨hsparse 1, by simp⟩
    | succ level => exact ⟨hsparse _, by simp⟩
  | some l =>
    obtain ⟨m, hpage, hat, -, hspelled⟩ := Catalog.holds_iff.mp hbase
    have hread : readNode C (K.store C).source scope keys l shape level start = .ok n := h
    rw [hpage.readNode_at hK hvalid hat] at hread
    cases hread
    have hsound : NodeSound C K l.pack.rank n := (hpage.placed hK.lawful hK.sound).sound
    have hchecked := hsound.checked
    rw [hat.level_eq, hat.start_eq] at hchecked
    have hcap : n.shape.capacity = shape.capacity := hat.capacity
    have hfan : n.shape.fanout = shape.fanout := hat.fanout
    refine ⟨hat, hchecked.sorted, hchecked.slot_nonneg, fun e he => ?_, fun hpos => ⟨?_, fun e he => ?_⟩,
      hspelled⟩
    · have := (hchecked.entry e he).2.1
      rwa [hcap, hfan] at this
    · exact hchecked.inner (by omega)
    · have := (hchecked.entry e he).2.2
      rw [if_pos (by omega)] at this
      exact this.2

/-! ## Leaves -/

/-- The loop over the entries of a node finds each of them under its slot. -/
theorem slotLocations_of_mem (hsorted : n.entries.Pairwise fun a b => a.slot < b.slot) {e : Entry}
    (he : e ∈ n.entries) :
    slotLocations n e.slot = some { segment := n.segmentOf e, record := e.record } :=
  Assign.foldl_update_of_mem n.entries he fun y hy heq => by rw [slot_unique hsorted hy he heq]

theorem slotLocations_of_notMem {i : Int} (h : ∀ e ∈ n.entries, e.slot ≠ i) : slotLocations n i = none :=
  Assign.foldl_update_of_notMem n.entries h

/-- A changed block has its new location, whatever the node says. -/
theorem changeLocations_of_mem {locs : Int → Option BlockLocation} (hge : ∀ b ∈ changed, start ≤ b)
    {i : Nat} (hi : start + i ∈ changed) :
    changeLocations values start changed locs i = values (start + i) := by
  have hkey : ((start + i - start : Nat) : Int) = i := by omega
  have := Assign.foldl_update_of_mem (f := fun b : Nat => ((b - start : Nat) : Int))
    (g := fun b => values b) (m := locs) changed hi fun y hy heq => by
      have := hge y hy
      have hy' : y = start + i := by omega
      rw [hy']
  rwa [hkey] at this

theorem changeLocations_of_notMem {locs : Int → Option BlockLocation} (hge : ∀ b ∈ changed, start ≤ b)
    {i : Nat} (hi : start + i ∉ changed) : changeLocations values start changed locs i = locs i := by
  refine Assign.foldl_update_of_notMem changed fun b hb heq => hi ?_
  have := hge b hb
  rwa [show start + i = b by omega]

/-- What a rebuild knows about the changes. -/
structure ChangesStaged (K : Catalog) (shape : Root) (changes : Changes) (values : Values) : Prop where
  block : ∀ b data, changes.lookup b = some data →
    data.length = blockSize ∧ b < blockCount shape.capacity
  located : ∀ b data, changes.lookup b = some data → Located K changes values b

/-- The changed blocks of a range. -/
structure ChangedIn (changes : Changes) (start stop : Nat) (changed : List Nat) : Prop where
  range : ∀ b ∈ changed, start ≤ b ∧ b < stop
  mem : ∀ b, start ≤ b → b < stop → (b ∈ changed ↔ (changes.lookup b).isSome)

/-- The base says of each slot of a leaf where its block is. -/
theorem BaseNode.location (h : BaseNode C K shape c 0 start n) {i : Nat} (hi : i < shape.fanout.toNat) :
    LocationHolds K c (start + i) (slotLocations n i)
      ∧ ((slotLocations n i).isSome → start + i < blockCount shape.capacity) := by
  have hleaf : LeafHolds K shape c start n := h.spelled
  by_cases hentry : ∃ e ∈ n.entries, e.slot = (i : Nat)
  · obtain ⟨e, he, heq⟩ := hentry
    have hrecord := hleaf.record e he
    have hbound := h.bound e he
    rw [← heq, slotLocations_of_mem h.sorted he]
    rw [heq, Int.toNat_natCast] at hrecord hbound
    exact ⟨hrecord, fun _ => by simpa [stride] using hbound⟩
  · push Not at hentry
    rw [slotLocations_of_notMem hentry]
    refine ⟨hleaf.sparse _ (Nat.le_add_right _ _) (by simpa [stride] using hi) fun e he hcover => ?_,
      fun hsome => by cases hsome⟩
    have h0 := h.nonneg e he
    have := hentry e he
    omega

/-- **A leaf rebuilt for its changes has the changed content**, and can be published if it has an entry. -/
theorem update_leaf (hK : K.Sound C scope keys) (hvalid : validateRoot shape = .ok ())
    (hfits : Fits shape 0 start) (hbase : BaseNode C K shape c 0 start n)
    (hstaged : ChangesStaged K shape changes values)
    (hchanged : ChangedIn changes start (start + stride shape.fanout 1) changed) :
    let locs := changeLocations values start changed (slotLocations n)
    let leaf : Node := { n with segments := (leafTable shape.fanout.toNat locs).1
                                entries := (leafTable shape.fanout.toNat locs).2 }
    LeafHolds K shape (overlay changes c) start leaf
      ∧ (leaf.entries ≠ [] → NodeReady C K shape (overlay changes c) 0 start leaf) := by
  intro locs leaf
  have hge : ∀ b ∈ changed, start ≤ b := fun b hb => (hchanged.range b hb).1
  -- the location of slot `i` is the new one of a changed block and the old one of any other
  have hslot : ∀ i < shape.fanout.toNat, LocationHolds K (overlay changes c) (start + i) (locs i)
      ∧ ((locs i).isSome → start + i < blockCount shape.capacity) := by
    intro i hi
    have hstop : start + i < start + stride shape.fanout 1 := by simpa [stride] using hi
    by_cases hin : start + i ∈ changed
    -- a changed block
    · obtain ⟨data, hdata⟩ := Option.isSome_iff_exists.mp
        ((hchanged.mem _ (Nat.le_add_right _ _) hstop).mp hin)
      obtain ⟨hlen, hlt⟩ := hstaged.block _ _ hdata
      rw [show locs i = values (start + i) from changeLocations_of_mem hge hin]
      exact ⟨(hstaged.located _ _ hdata).holds hdata hlen, fun _ => hlt⟩
    · have hnone : changes.lookup (start + i) = none := by
        rw [← Option.not_isSome_iff_eq_none]
        exact fun h => hin ((hchanged.mem _ (Nat.le_add_right _ _) hstop).mpr h)
      rw [show locs i = slotLocations n i from changeLocations_of_notMem hge hin]
      exact (hbase.location hi).imp_left fun hold => hold.congr fun p hlo hhi => (overlay_of_none hnone hlo hhi).symm
  have hlocs := fun i hi => (hslot i hi).1
  exact ⟨(leafTable_spec shape.fanout.toNat locs).leafHolds hlocs rfl rfl,
    leaf_ready hK hvalid hfits hbase.at_position hlocs fun i hi => (hslot i hi).2⟩

/-! ## Plans -/

theorem Planned.lt {levels : Levels} {index : Nat} (h : Planned C K shape c levels level index start) :
    index < (levels level).length := by
  cases level <;>
    · obtain ⟨d, hd, -⟩ := h
      exact (List.getElem?_eq_some_iff.mp hd).1

theorem Levels.Le.refl (a : Levels) : a.Le a := fun _ => List.prefix_refl _

theorem Levels.Le.trans {a b c : Levels} (hab : a.Le b) (hbc : b.Le c) : a.Le c :=
  fun level => (hab level).trans (hbc level)

theorem Levels.Le.getElem? {a b : Levels} (h : a.Le b) {level index : Nat} {d : DirectNode}
    (hd : (a level)[index]? = some d) : (b level)[index]? = some d := by
  obtain ⟨more, hmore⟩ := h level
  rw [← hmore, List.getElem?_append_left (List.getElem?_eq_some_iff.mp hd).1]
  exact hd

section Links

variable {below below' : Nat → Nat → Prop} (himp : ∀ i s, below i s → below' i s)
include himp

theorem LinkReady.imp {e : Entry} {index : Option Nat} (h : LinkReady C K shape c below level start e index) :
    LinkReady C K shape c below' level start e index := by
  cases index with
  | none => exact h
  | some index => exact himp _ _ h

theorem InnerReady.imp {d : DirectNode} (h : InnerReady C K shape c below level start d) :
    InnerReady C K shape c below' level start d :=
  { h with child := fun e he => (h.child e he).imp himp }

end Links

/-- More nodes at the end of a level change nothing for those that are planned. -/
theorem Planned.mono {a b : Levels} (h : a.Le b) {index : Nat}
    (hp : Planned C K shape c a level index start) : Planned C K shape c b level index start := by
  induction level generalizing index start with
  | zero =>
    obtain ⟨d, hd, hrest⟩ := hp
    exact ⟨d, h.getElem? hd, hrest⟩
  | succ level ih =>
    obtain ⟨d, hd, hne, hready⟩ := hp
    exact ⟨d, h.getElem? hd, hne, hready.imp fun _ _ => ih⟩

theorem Levels.le_update (levels : Levels) (level : Nat) (d : DirectNode) :
    levels.Le (Function.update levels level (levels level ++ [d])) := by
  intro k
  by_cases hk : k = level
  · rw [hk, Function.update_self]
    exact List.prefix_append _ _
  · rw [Function.update_of_ne hk]

/-- A node that is kept is planned; one without entries leaves only holes. -/
theorem keepNode_spec (level start : Nat) (d : DirectNode) {levels : Levels}
    (hall : AllPlanned C K shape c levels)
    (hholes : d.node.entries = [] →
      ∀ blk, start ≤ blk → blk < start + stride shape.fanout ((level : Int) + 1) → Hole c blk)
    (hplan : d.node.entries ≠ [] → ∀ levels' : Levels, levels.Le levels' →
      (levels' level)[(levels level).length]? = some d →
      Planned C K shape c levels' level (levels level).length start) :
    levels.Le (keepNode level d levels).2 ∧ AllPlanned C K shape c (keepNode level d levels).2
      ∧ Rebuilt C K shape c (keepNode level d levels).2 level start (keepNode level d levels).1 := by
  unfold keepNode
  split
  · rename_i hempty
    exact ⟨Levels.Le.refl _, hall, hholes hempty⟩
  · rename_i hne
    have hle := levels.le_update level d
    have hnew : (Function.update levels level (levels level ++ [d]) level)[(levels level).length]?
        = some d := by
      rw [Function.update_self]
      simp
    refine ⟨hle, fun k index hindex => ?_, hplan hne _ hle hnew⟩
    by_cases hold : index < (levels k).length
    · obtain ⟨s, hs⟩ := hall k index hold
      exact ⟨s, hs.mono hle⟩
    -- the new index is that of the node that was added
    · have hk : k = level := by
        by_contra hother
        simp only [Function.update_of_ne hother] at hindex
        exact hold hindex
      subst hk
      simp only [Function.update_self, List.length_append, List.length_singleton] at hindex
      cases (by omega : index = (levels k).length)
      exact ⟨start, hplan hne _ hle hnew⟩

/-! ## Inner nodes -/

theorem slotEntries_of_mem (hsorted : n.entries.Pairwise fun a b => a.slot < b.slot) {e : Entry}
    (he : e ∈ n.entries) : slotEntries n e.slot = some e :=
  Assign.foldl_update_of_mem n.entries he fun y hy heq => by rw [slot_unique hsorted hy he heq]

theorem slotEntries_of_notMem {i : Int} (h : ∀ e ∈ n.entries, e.slot ≠ i) : slotEntries n i = none :=
  Assign.foldl_update_of_notMem n.entries h

theorem SlotReady.of_eq {span slot : Nat} {acc acc' : Slots}
    (h : SlotReady C K shape c level start span acc slot) (hentry : acc'.entries slot = acc.entries slot)
    (hchild : acc'.children.lookup (slot : Int) = acc.children.lookup (slot : Int))
    (hle : acc.levels.Le acc'.levels) : SlotReady C K shape c level start span acc' slot := by
  unfold SlotReady at h ⊢
  rw [hentry]
  cases he : acc.entries slot with
  | none =>
    rw [he] at h
    exact h
  | some e =>
    rw [he] at h
    obtain ⟨hslot, hseg, hrec, hlt, hlink⟩ := h
    rw [← hchild] at hlink
    exact ⟨hslot, hseg, hrec, hlt, hlink.imp fun _ _ hplanned => hplanned.mono hle⟩

theorem SlotReady.entry {span slot : Nat} {acc : Slots} {e : Entry}
    (h : SlotReady C K shape c level start span acc slot) (he : acc.entries slot = some e) :
    e.slot = slot ∧ e.segment = 0 ∧ e.record = 0 ∧ start + slot * span < blockCount shape.capacity
      ∧ LinkReady C K shape c (Planned C K shape c acc.levels level) level (start + slot * span) e
        (acc.children.lookup (slot : Int)) := by
  unfold SlotReady at h
  rwa [he] at h

section SlotStep

variable {n : Node} {changes : Changes} {changed : List Nat} {level start : Nat} {levels : Levels}
  {acc acc' : Slots}

/-- The changed blocks of a slot. -/
theorem ChangedIn.group (hvalid : validateRoot shape = .ok ())
    (h : ChangedIn changes start (start + stride shape.fanout ((level + 1 : Nat) + 1)) changed) {k : Nat}
    (hk : k < shape.fanout.toNat) :
    ChangedIn changes (start + k * stride shape.fanout (level + 1 : Nat))
      (start + k * stride shape.fanout (level + 1 : Nat) + stride shape.fanout (level + 1 : Nat))
      (changed.filter fun b => (b - start) / stride shape.fanout (level + 1 : Nat) = k) := by
  have hpos := (validateRoot_eq_ok.mp hvalid).1.stride_pos (level + 1 : Nat)
  rw [stride_succ, Nat.mul_comm] at h
  generalize stride shape.fanout (level + 1 : Nat) = span at h hpos ⊢
  have hslot : ∀ b, start ≤ b → ((b - start) / span = k ↔
      start + k * span ≤ b ∧ b < start + k * span + span) := by
    intro b hb
    rw [Nat.div_eq_iff hpos]
    omega
  constructor
  · intro b hb
    obtain ⟨hin, heq⟩ := List.mem_filter.mp hb
    exact (hslot b (h.range b hin).1).mp (by simpa using heq)
  · intro b hlo hhi
    have hstart : start ≤ b := by omega
    have hstop : b < start + shape.fanout.toNat * span := by
      have : (k + 1) * span ≤ shape.fanout.toNat * span := Nat.mul_le_mul_right _ hk
      rw [Nat.succ_mul] at this
      omega
    rw [List.mem_filter, ← h.mem b hstart hstop]
    simp [(hslot b hstart).mpr ⟨hlo, hhi⟩]

/-- The base below a slot. -/
theorem BaseNode.slot (hbase : BaseNode C K shape c (level + 1) start n) {k : Nat}
    (hk : k < shape.fanout.toNat) :
    BaseHolds C K shape c level ((slotEntries n k).bind Entry.child)
      (start + k * stride shape.fanout (level + 1 : Nat)) := by
  have hinner : InnerHolds (K.Holds C shape c level) shape c (level + 1) start n := hbase.spelled
  by_cases hentry : ∃ e ∈ n.entries, e.slot = (k : Nat)
  · obtain ⟨e, he, heq⟩ := hentry
    obtain ⟨l, hl, hbelow⟩ := hinner.child e he
    rw [← heq, slotEntries_of_mem hbase.sorted he, Option.bind_some, hl]
    rw [heq, Int.toNat_natCast] at hbelow
    exact hbelow
  · push Not at hentry
    rw [slotEntries_of_notMem hentry]
    intro blk hlo hhi
    have hsparse := hinner.sparse blk
    rw [stride_succ, Nat.mul_comm (stride _ _)] at hsparse
    rw [show ((level : Int) + 1) = ((level + 1 : Nat) : Int) by push_cast; rfl] at hhi
    generalize stride shape.fanout (level + 1 : Nat) = span at hlo hhi hsparse
    have key : ∀ x y : Nat, x < y → x * span + span ≤ y * span :=
      fun x y hxy => by rw [← Nat.succ_mul]; exact Nat.mul_le_mul_right _ hxy
    have hlast := key _ _ hk
    refine hsparse (by omega) (by omega) fun e he hcover => ?_
    -- a block lies under one slot only
    have h0 := hbase.nonneg e he
    have hne := hentry e he
    rcases lt_trichotomy e.slot.toNat k with hlt | heq | hgt
    · have := key _ _ hlt
      omega
    · omega
    · have := key _ _ hgt
      omega

end SlotStep

end Helmr.BlockFormat
