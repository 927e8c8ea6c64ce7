import Helmr.BlockFormat.Staging

/-!
# Block format — the content of cataloged versions

`Catalog.Holds` is the reading-free counterpart of `Tree.Holds`: it follows the documents of a catalog instead of the
reader. Nothing in it depends on the store, so it is preserved by every addition (`Catalog.Holds.mono`);
`Catalog.Holds.tree` turns it into a statement about reads where the objects do not collide, and
`Catalog.Version.reads` that of a whole version. `Catalog.Version.visits` and `.not_hole` say what a reader meets on
its ways down: no node without entries, and no entry for a block of zeros.
-/

namespace Helmr.BlockFormat

open Wire Wire.Json Fallible Hoare

variable (C : Crypto)

/-- A node of the version `shape` at `level` and `start`. -/
structure Node.At (n : Node) (shape : Root) (level start : Nat) : Prop where
  capacity : n.capacity = shape.capacity
  fanout : n.fanout = shape.fanout
  level_eq : n.level = level
  start_eq : n.start = start

/-- The entries of a leaf name records with the content's blocks, and a block of zeros has none. -/
structure LeafHolds (K : Catalog) (shape : Root) (c : Content) (start : Nat) (n : Node) : Prop where
  sparse : Sparse c start 1 (start + stride shape.fanout 1) n.entries
  record : ∀ e ∈ n.entries, ∃ blocks raw, Item.segment (n.segmentOf e) blocks raw ∈ K
    ∧ blocks[e.record]? = some (window c ((start + e.slot.toNat) * blockSize) blockSize)
    ∧ ¬Hole c (start + e.slot.toNat)

/-- The entries of an inner node lead to subtrees with the content's blocks. -/
structure InnerHolds (below : Locator → Nat → Prop) (shape : Root) (c : Content) (level start : Nat)
    (n : Node) : Prop where
  sparse : Sparse c start (stride shape.fanout level) (start + stride shape.fanout ((level : Int) + 1))
    n.entries
  child : ∀ e ∈ n.entries, ∃ l, e.child = some l
    ∧ below l (start + e.slot.toNat * stride shape.fanout level)

def Catalog.Holds (K : Catalog) (shape : Root) (c : Content) : (level : Nat) → Locator → (start : Nat) → Prop
  | 0, l, start => ∃ n, K.PageAt C l (.node n) ∧ n.At shape 0 start ∧ n.entries ≠ []
      ∧ LeafHolds K shape c start n
  | level + 1, l, start => ∃ n, K.PageAt C l (.node n) ∧ n.At shape (level + 1) start ∧ n.entries ≠ []
      ∧ InnerHolds (Catalog.Holds K shape c level) shape c (level + 1) start n

/-- What the entries of a node at `level` say about the content. -/
def Catalog.Spelled (K : Catalog) (shape : Root) (c : Content) : (level start : Nat) → Node → Prop
  | 0, start, n => LeafHolds K shape c start n
  | level + 1, start, n => InnerHolds (K.Holds C shape c level) shape c (level + 1) start n

/-- The version at a root locator has the content `c`. -/
structure Catalog.Version (K : Catalog) (l : Locator) (shape : Root) (c : Content) : Prop where
  page : K.PageAt C l (.root shape)
  index : ∀ i ∈ shape.index, K.Holds C shape c shape.level.toNat i 0
  empty : shape.index = none → ∀ p, c p = 0
  beyond : ∀ p : Nat, shape.capacity ≤ p → c p = 0

variable {C} {K K' : Catalog} {shape : Root} {c c' : Content}

/-! ## Growth and locality -/

variable {start : Nat} {n : Node} {level : Nat} {l : Locator}

theorem LeafHolds.mono (h : K ⊆ K') (hn : LeafHolds K shape c start n) :
    LeafHolds K' shape c start n where
  sparse := hn.sparse
  record e he := by
    obtain ⟨blocks, raw, hin, hblock⟩ := hn.record e he
    exact ⟨blocks, raw, h hin, hblock⟩

theorem InnerHolds.imp {below below' : Locator → Nat → Prop}
    (hn : InnerHolds below shape c level start n) (h : ∀ l s, below l s → below' l s) :
    InnerHolds below' shape c level start n where
  sparse := hn.sparse
  child e he := by
    obtain ⟨l, hl, hb⟩ := hn.child e he
    exact ⟨l, hl, h _ _ hb⟩

theorem Catalog.Holds.mono (h : K ⊆ K') (hh : K.Holds C shape c level l start) :
    K'.Holds C shape c level l start := by
  induction level generalizing l start with
  | zero =>
    obtain ⟨n, hpage, hat, hne, hleaf⟩ := hh
    exact ⟨n, hpage.mono h, hat, hne, hleaf.mono h⟩
  | succ level ih =>
    obtain ⟨n, hpage, hat, hne, hinner⟩ := hh
    exact ⟨n, hpage.mono h, hat, hne, hinner.imp fun _ _ => ih⟩

theorem Catalog.Version.mono (h : K ⊆ K') (hv : K.Version C l shape c) : K'.Version C l shape c :=
  ⟨hv.page.mono h, fun i hi => (hv.index i hi).mono h, hv.empty, hv.beyond⟩

/-- One form for leaves and inner nodes. -/
theorem Catalog.holds_iff :
    K.Holds C shape c level l start ↔
      ∃ n, K.PageAt C l (.node n) ∧ n.At shape level start ∧ n.entries ≠ []
        ∧ K.Spelled C shape c level start n := by
  cases level <;> rfl

theorem Catalog.Spelled.mono (h : K ⊆ K') (hs : K.Spelled C shape c level start n) :
    K'.Spelled C shape c level start n := by
  cases level with
  | zero => exact LeafHolds.mono h hs
  | succ level => exact InnerHolds.imp hs fun _ _ hb => hb.mono h

theorem Catalog.Holds.nodeAt (h : K.Holds C shape c level l start) :
    K.NodeAt C { locator := l, shape, level, start } := by
  obtain ⟨n, hpage, hat, -⟩ := Catalog.holds_iff.mp h
  exact ⟨n, hpage, hat.capacity, hat.fanout, hat.level_eq, hat.start_eq⟩

/-- A position in the tree of `shape`. -/
structure Fits (shape : Root) (level start : Nat) : Prop where
  level_le : (level : Int) ≤ shape.level
  start_lt : start < blockCount shape.capacity
  aligned : start % stride shape.fanout ((level : Int) + 1) = 0

/-- A node that can be published at its position. -/
structure NodeReady (C : Crypto) (K : Catalog) (shape : Root) (c : Content) (level start : Nat)
    (n : Node) : Prop where
  sound : NodeSound C K ((level : Int) + 1) n
  at_position : n.At shape level start
  nonempty : n.entries ≠ []
  spelled : K.Spelled C shape c level start n

theorem NodeReady.mono (h : K ⊆ K') (hn : NodeReady C K shape c level start n) :
    NodeReady C K' shape c level start n :=
  ⟨hn.sound.mono h, hn.at_position, hn.nonempty, hn.spelled.mono h⟩

theorem NodeReady.holds (hn : NodeReady C K shape c level start n) (hpage : K.PageAt C l (.node n)) :
    K.Holds C shape c level l start :=
  Catalog.holds_iff.mpr ⟨n, hpage, hn.at_position, hn.nonempty, hn.spelled⟩

/-- What does not depend on the entries: the geometry of a node at its position. -/
theorem Node.At.geometry (hat : n.At shape level start) (hvalid : validateRoot shape = .ok ())
    (hfits : Fits shape level start) :
    validateRoot n.shape = .ok () ∧ 0 ≤ n.level ∧ n.level ≤ n.shape.level
      ∧ n.start < blockCount n.capacity ∧ n.start % stride n.fanout (n.level + 1) = 0
      ∧ IntRange n.capacity ∧ IntRange n.fanout ∧ IntRange n.level ∧ n.start ≤ uint64Max := by
  obtain ⟨hgeo, hlevel, -⟩ := validateRoot_eq_ok.mp hvalid
  have hle := hfits.level_le
  have hlt := hfits.start_lt
  have hfour := hgeo.treeLevel_le
  have hcap := hgeo.capacity_eq
  have hcount := hgeo.blockCount_le
  have hmin : intMin ≤ 0 := by decide
  have hmax : ((maxBlocks * blockSize : Nat) : Int) ≤ intMax := by decide
  have hbytes : blockCount shape.capacity * blockSize ≤ maxBlocks * blockSize :=
    Nat.mul_le_mul_right _ hcount
  have huint : maxBlocks ≤ uint64Max := by decide
  have hsmall : (256 : Int) ≤ intMax := by decide
  unfold Node.shape IntRange
  rw [hat.capacity, hat.fanout, hat.level_eq, hat.start_eq]
  refine ⟨validateRoot_eq_ok.mpr ⟨hgeo, rfl, by simp⟩, by omega, hlevel ▸ hle, hlt, hfits.aligned,
    ⟨by omega, by omega⟩, ?_, ⟨by omega, by omega⟩, by omega⟩
  rcases hgeo.fanout_cases with h | h <;> rw [h] <;> exact ⟨by omega, by omega⟩

/-! ## Reads -/

section Reads

variable {scope : Bytes} {keys : Keys}

variable {l : Locator}

/-- The node a reader finds is the cataloged one. -/
theorem Catalog.PageAt.readNode_at (hK : K.Readable C scope keys) (hvalid : validateRoot shape = .ok ()) {n : Node}
    (hpage : K.PageAt C l (.node n)) {level start : Nat} (hat : n.At shape level start) :
    readNode C (K.store C).source scope keys l shape level start = .ok n := by
  have hlink : K.NodeAt C { locator := l, shape, level, start } :=
    ⟨n, hpage, hat.capacity, hat.fanout, hat.level_eq, hat.start_eq⟩
  obtain ⟨m, hpage', hsound, hread⟩ := hlink.readNode_eq hK hvalid
  -- one page has one document: both read from the same bytes
  have hplain := (hpage.readPage_eq hK).symm.trans (hpage'.readPage_eq hK)
  have hn : decodeNode (renderNode n) = .ok n :=
    decodeNode_renderNode (hpage.placed hK.lawful hK.sound).sound.portable
  have hm : decodeNode (renderNode m) = .ok m := decodeNode_renderNode hsound.portable
  have hrender : renderNode n = renderNode m := Except.ok.inj hplain
  rw [hrender, hm] at hn
  cases hn
  exact hread

/-- **Cataloged contents are read contents.** -/
theorem Catalog.Holds.tree (hK : K.Readable C scope keys)
    (hvalid : validateRoot shape = .ok ()) {level : Nat} {start : Nat}
    (h : K.Holds C shape c level l start) :
    Tree.Holds C { source := (K.store C).source, scope, keys, shape } c level l start := by
  induction level generalizing l start with
  | zero =>
    obtain ⟨n, hpage, hat, -, hleaf⟩ := h
    refine ⟨n, hpage.readNode_at hK hvalid hat, hleaf.sparse, fun e he => ?_⟩
    obtain ⟨blocks, raw, hin, hblock, -⟩ := hleaf.record e he
    exact Catalog.readBlocks_eq hK hin hblock
  | succ level ih =>
    obtain ⟨n, hpage, hat, -, hinner⟩ := h
    refine ⟨n, hpage.readNode_at hK hvalid hat, hinner.sparse, fun e he => ?_⟩
    obtain ⟨child, hchild, hbelow⟩ := hinner.child e he
    exact ⟨child, hchild, ih hbelow⟩

/-- **A cataloged version opens and reads as its content.** -/
theorem Catalog.Version.reads (hK : K.Readable C scope keys) (h : K.Version C l shape c) :
    openTree C (K.store C).source scope keys l
        = .ok { source := (K.store C).source, scope, keys, shape }
      ∧ ∀ offset length : Nat, length ≤ maxReadBytes → (offset + length : Int) ≤ shape.capacity →
          Tree.readRange C { source := (K.store C).source, scope, keys, shape } offset length
            = .ok (window c offset length) := by
  have hsound : RootSound C K l.pack.rank shape := (h.page.placed hK.lawful hK.sound).sound
  have hspells : Tree.Spells C { source := (K.store C).source, scope, keys, shape } c :=
    ⟨hsound.valid, fun i hi => (h.index i hi).tree hK hsound.valid, h.empty⟩
  refine ⟨?_, fun offset length hmax hfit => hspells.readRange_eq hK.lawful rfl hmax hfit⟩
  rw [openTree, h.page.readRoot_eq hK, ok_bind]

end Reads

/-! ## Holes -/

/-- The nodes of a tree, as a reader meets them on its ways down. -/
inductive Tree.Visits (C : Crypto) (t : Tree) : (level start : Nat) → Node → Prop
  | top {l : Locator} {n : Node} (hindex : t.shape.index = some l)
      (hread : readNode C t.source t.scope t.keys l t.shape t.shape.level.toNat 0 = .ok n) :
      Visits C t t.shape.level.toNat 0 n
  | down {level start : Nat} {n child : Node} {e : Entry} {l : Locator} (h : Visits C t (level + 1) start n)
      (he : e ∈ n.entries) (hchild : e.child = some l)
      (hread : readNode C t.source t.scope t.keys l t.shape level
        (start + e.slot.toNat * stride t.shape.fanout (level + 1 : Nat)) = .ok child) :
      Visits C t level (start + e.slot.toNat * stride t.shape.fanout (level + 1 : Nat)) child

/-- A leaf of the tree has an entry for block `b`. -/
def Tree.Stores (C : Crypto) (t : Tree) (b : Nat) : Prop :=
  ∃ start n, t.Visits C 0 start n ∧ ∃ e ∈ n.entries, start + e.slot.toNat = b

section Visits

variable {scope : Bytes} {keys : Keys} (hK : K.Readable C scope keys)
include hK

theorem Catalog.Holds.of_read (hvalid : validateRoot shape = .ok ()) (h : K.Holds C shape c level l start)
    (hread : readNode C (K.store C).source scope keys l shape level start = .ok n) :
    n.entries ≠ [] ∧ K.Spelled C shape c level start n := by
  obtain ⟨m, hpage, hat, hne, hspelled⟩ := Catalog.holds_iff.mp h
  rw [hpage.readNode_at hK hvalid hat] at hread
  cases hread
  exact ⟨hne, hspelled⟩

/-- **No node of a version is empty.** Induction on the way a reader came to it. -/
theorem Catalog.Version.visits (h : K.Version C l shape c)
    (hvisit : Tree.Visits C { source := (K.store C).source, scope, keys, shape } level start n) :
    n.entries ≠ [] ∧ K.Spelled C shape c level start n := by
  have hvalid : validateRoot shape = .ok () := RootSound.valid (h.page.placed hK.lawful hK.sound).sound
  induction hvisit with
  | top hindex hread => exact (h.index _ hindex).of_read hK hvalid hread
  | down _ he hchild hread ih =>
    obtain ⟨l, hl, hbelow⟩ := InnerHolds.child ih.2 _ he
    cases hchild.symm.trans hl
    exact hbelow.of_read hK hvalid hread

/-- **Only blocks with data have entries.** -/
theorem Catalog.Version.not_hole (h : K.Version C l shape c) {b : Nat}
    (hstores : Tree.Stores C { source := (K.store C).source, scope, keys, shape } b) : ¬Hole c b := by
  obtain ⟨start, n, hvisit, e, he, rfl⟩ := hstores
  obtain ⟨-, -, -, -, hdata⟩ := LeafHolds.record (h.visits hK hvisit).2 e he
  exact hdata

end Visits

end Helmr.BlockFormat
