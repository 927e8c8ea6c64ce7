import Helmr.BlockFormat.InspectSpec
import Helmr.BlockFormat.MetadataCodec
import Helmr.BlockFormat.Seal
import Helmr.BlockFormat.Write

/-!
# Block format — catalogs of staged objects

What a writer has staged, remembered with its meaning: a catalog lists segments with their blocks and packs with the
documents of their pages. It is sound when every object is sealed as the format says and every reference out of a page
leads to the right place in the catalog itself. Nothing is ever removed, so soundness and the places of pages survive
whatever is added later (the `mono` lemmas, and `Catalog.Sound.append` for one more item).

A sound catalog is what both sides of the format need. `Catalog.PageAt.placed` says what a place in it is;
`Catalog.NodeAt.readNode_eq`, `Catalog.PageAt.readRoot_eq` and `Catalog.readBlocks_eq` read pages and records back;
and its packs and segments pass publication inspection.
-/

namespace Helmr.BlockFormat

open Wire Wire.Json Fallible

inductive PageBody where
  | node (n : Node)
  | root (r : Root)

def PageBody.plain : PageBody → Bytes
  | node n => renderNode n
  | root r => renderRoot r

def PageBody.kind : PageBody → UInt8
  | node _ => nodeKind
  | root _ => rootKind

/-- A staged page with its document. -/
structure CatalogPage extends StagedPage where
  body : PageBody

inductive Item where
  | segment (ref : Ref) (blocks : List Bytes) (raw : Bytes)
  | pack (rank : Int) (pages : List CatalogPage)

abbrev Catalog := List Item

variable (C : Crypto) (scope : Bytes) (keys : Keys)

def packBytes (rank : Int) (pages : List CatalogPage) : Bytes :=
  (encodePack rank (pages.map CatalogPage.toStagedPage)).1

/-- The object a sink is given for an item. -/
def Item.object : Item → Digest × Bytes
  | segment ref _ raw => (ref.digest, raw)
  | pack rank pages => (C.sha256 (packBytes rank pages), packBytes rank pages)

def Catalog.store (K : Catalog) : Store := K.map (Item.object C)

/-- The place of a page that follows `before` in its pack. -/
def pageLocator (rank : Int) (pages before : List CatalogPage) (page : CatalogPage) : Locator :=
  { pack := packRef C rank (packBytes rank pages), page := page.ref
    offset := ((packHead rank (pages.map CatalogPage.toStagedPage)).length
      + (before.flatMap fun p => p.bytes).length : Nat) }

def Catalog.PageAt (K : Catalog) (l : Locator) (body : PageBody) : Prop :=
  ∃ rank before page after, Item.pack rank (before ++ page :: after) ∈ K ∧ page.body = body
    ∧ l = pageLocator C rank (before ++ page :: after) before page

/-- A node stands where a link expects it. -/
def Catalog.NodeAt (K : Catalog) (link : NodeReference) : Prop :=
  ∃ n, K.PageAt C link.locator (.node n) ∧ n.capacity = link.shape.capacity
    ∧ n.fanout = link.shape.fanout ∧ n.level = link.level ∧ n.start = link.start

structure NodeSound (K : Catalog) (rank : Int) (n : Node) : Prop where
  valid : validateRoot n.shape = .ok ()
  level_nonneg : 0 ≤ n.level
  level_le : n.level ≤ n.shape.level
  start_lt : n.start < blockCount n.capacity
  aligned : n.start % stride n.fanout (n.level + 1) = 0
  rank_eq : rank = n.level + 1
  checked : n.Checked n.shape n.level n.start
  portable : n.Portable
  segments : ∀ s ∈ n.segments, ∃ blocks raw, Item.segment s blocks raw ∈ K
  links : ∀ link ∈ n.links n.shape, K.NodeAt C link

structure RootSound (K : Catalog) (rank : Int) (r : Root) : Prop where
  valid : validateRoot r = .ok ()
  rank_eq : rank = r.level + 2
  portable : r.Portable
  links : ∀ l ∈ r.index, K.NodeAt C { locator := l, shape := r, level := r.level, start := 0 }

def PageBody.Sound (K : Catalog) (rank : Int) : PageBody → Prop
  | node n => NodeSound C K rank n
  | root r => RootSound C K rank r

structure CatalogPage.Sound (K : Catalog) (rank : Int) (page : CatalogPage) : Prop where
  sealed_eq : SealedPage C scope (keys.get page.ref.key) page.ref page.body.plain page.bytes
  kind : page.ref.kind = page.body.kind
  utf8 : Utf8 page.ref.key
  body : page.body.Sound C K rank

structure PackSound (K : Catalog) (rank : Int) (pages : List CatalogPage) : Prop where
  nonempty : pages ≠ []
  nodup : (pages.map fun p => p.ref).Nodup
  size_le : (packBytes rank pages).length ≤ maxPackLimit
  page : ∀ p ∈ pages, p.Sound C scope keys K rank

def Item.Sound (K : Catalog) : Item → Prop
  | segment ref blocks raw => SealedSegment C scope (keys.get ref.key) ref blocks raw ∧ Utf8 ref.key
  | pack rank pages => PackSound C scope keys K rank pages

def Catalog.Sound (K : Catalog) : Prop := ∀ item ∈ K, item.Sound C scope keys K

variable {C scope keys} {K K' : Catalog}

/-! ## Growth -/

variable {l : Locator} {body : PageBody} {rank : Int} {item : Item}

theorem Catalog.PageAt.mono (h : K ⊆ K') (hp : K.PageAt C l body) : K'.PageAt C l body := by
  obtain ⟨rank, before, page, after, hin, hrest⟩ := hp
  exact ⟨rank, before, page, after, h hin, hrest⟩

theorem Catalog.NodeAt.mono (h : K ⊆ K') {link : NodeReference} (hn : K.NodeAt C link) :
    K'.NodeAt C link := by
  obtain ⟨n, hp, hrest⟩ := hn
  exact ⟨n, hp.mono h, hrest⟩

theorem NodeSound.mono (h : K ⊆ K') {n : Node} (hn : NodeSound C K rank n) : NodeSound C K' rank n :=
  { hn with
    segments := fun s hs => by
      obtain ⟨blocks, raw, hin⟩ := hn.segments s hs
      exact ⟨blocks, raw, h hin⟩
    links := fun link hl => (hn.links link hl).mono h }

theorem RootSound.mono (h : K ⊆ K') {r : Root} (hr : RootSound C K rank r) : RootSound C K' rank r :=
  { hr with links := fun l hl => (hr.links l hl).mono h }

theorem PageBody.Sound.mono (h : K ⊆ K') (hb : body.Sound C K rank) : body.Sound C K' rank := by
  cases body with
  | node n => exact NodeSound.mono h hb
  | root r => exact RootSound.mono h hb

theorem CatalogPage.Sound.mono (h : K ⊆ K') {page : CatalogPage} (hp : page.Sound C scope keys K rank) :
    page.Sound C scope keys K' rank :=
  { hp with body := hp.body.mono h }

theorem Item.Sound.mono (h : K ⊆ K') (hi : item.Sound C scope keys K) : item.Sound C scope keys K' := by
  cases item with
  | segment ref blocks raw => exact hi
  | pack rank pages => exact { hi with page := fun p hp => (PackSound.page hi p hp).mono h }

/-- **Adding a sound item keeps a catalog sound.** -/
theorem Catalog.Sound.append (h : K.Sound C scope keys) (hi : item.Sound C scope keys (K ++ [item])) :
    (K ++ [item]).Sound C scope keys := by
  intro x hx
  rcases List.mem_append.mp hx with hx | hx
  · exact (h x hx).mono (List.subset_append_left _ _)
  · cases List.mem_singleton.mp hx
    exact hi

/-! ## Reading -/

theorem Catalog.object_of_mem (hK : NoCollision (K.store C)) (h : item ∈ K) :
    (K.store C).object (item.object C).1 = some (item.object C).2 :=
  hK.object_of_mem (List.mem_map.mpr ⟨item, h, rfl⟩)

theorem packBytes_eq (rank : Int) (pages : List CatalogPage) :
    packBytes rank pages = packHead rank (pages.map CatalogPage.toStagedPage)
      ++ pages.flatMap fun p => p.bytes := by
  simp [packBytes, encodePack, List.flatMap_map]

theorem length_packHead_ge (rank : Int) (pages : List StagedPage) : 8 ≤ (packHead rank pages).length := by
  have hmagic : (ascii "HGP0").length = 4 := by decide
  simp only [packHead, List.length_append, length_beBytes, hmagic]
  omega

/-- A page lies in its pack at its locator's range. -/
theorem slice_packBytes (rank : Int) (before after : List CatalogPage) (page : CatalogPage) :
    slice (packBytes rank (before ++ page :: after))
      ((packHead rank ((before ++ page :: after).map CatalogPage.toStagedPage)).length
        + (before.flatMap fun p => p.bytes).length) page.bytes.length = page.bytes := by
  rw [packBytes_eq, slice_append_right, List.flatMap_append, List.flatMap_cons, ← List.append_assoc,
    slice_middle]

theorem length_packBytes (rank : Int) (before after : List CatalogPage) (page : CatalogPage) :
    (packHead rank ((before ++ page :: after).map CatalogPage.toStagedPage)).length
      + (before.flatMap fun p => p.bytes).length + page.bytes.length
      ≤ (packBytes rank (before ++ page :: after)).length := by
  rw [packBytes_eq, List.length_append, List.flatMap_append, List.flatMap_cons, List.length_append,
    List.length_append]
  omega

/-- The rank of a sound body is that of its tree, between one and six. -/
theorem PageBody.Sound.rank_bounds (h : body.Sound C K rank) : 1 ≤ rank ∧ rank ≤ 6 := by
  cases body with
  | node n =>
    have hlevel := (validateRoot_eq_ok.mp (NodeSound.valid h)).2.1
    have hfour := (validateRoot_eq_ok.mp (NodeSound.valid h)).1.treeLevel_le
    have h0 := NodeSound.level_nonneg h
    have hle := NodeSound.level_le h
    have hrank := NodeSound.rank_eq h
    have : n.shape.level = treeLevel n.capacity n.fanout := rfl
    have : treeLevel n.shape.capacity n.shape.fanout = treeLevel n.capacity n.fanout := rfl
    omega
  | root r =>
    have hlevel := (validateRoot_eq_ok.mp (RootSound.valid h)).2.1
    have hfour := (validateRoot_eq_ok.mp (RootSound.valid h)).1.treeLevel_le
    have hrank := RootSound.rank_eq h
    omega

theorem PageBody.kind_ne_segment (body : PageBody) : body.kind ≠ segmentKind := by
  cases body <;> simp only [PageBody.kind] <;> decide

theorem readRange_inspectedBytes (ref : PackRef) {raw : Bytes} {o n : Nat} (hn : 0 < n)
    (hmax : n ≤ maxMetadata + 1024) (hfit : o + n ≤ raw.length) :
    readRange (inspectedBytes ref raw) ref.digest raw.length o n = .ok (slice raw o n) := by
  have hlen := length_slice hfit
  simp only [readRange, bind_eq_ok, reject_eq_ok, exists_const, inspectedBytes]
  refine ⟨by push Not; omega, slice raw o n, ?_, by rw [hlen]; simp, rfl⟩
  rw [if_neg (by push Not; exact ⟨rfl, rfl, by omega, by omega, by omega⟩)]
  simp

/-- **A sound page reads as its document** out of the bytes of its pack. -/
theorem CatalogPage.Sound.readPage_eq (hC : C.Lawful) {before after : List CatalogPage}
    {page : CatalogPage} (h : page.Sound C scope keys K rank)
    (hsize : (packBytes rank (before ++ page :: after)).length ≤ maxPackLimit) :
    readPage C
      (inspectedBytes (packRef C rank (packBytes rank (before ++ page :: after)))
        (packBytes rank (before ++ page :: after)))
      scope (keys.get page.ref.key) (pageLocator C rank (before ++ page :: after) before page)
      = .ok page.body.plain := by
  have hlen := h.sealed_eq.length_eq hC
  have hplain := h.sealed_eq.plain_le
  have hrefsize := h.sealed_eq.size
  have hhead := length_headerBytes_le h.sealed_eq.context
  have hfit := length_packBytes rank before after page
  have hge := length_packHead_ge rank ((before ++ page :: after).map CatalogPage.toStagedPage)
  obtain ⟨hlo, hhi⟩ := h.body.rank_bounds
  have hmeta : 1000 ≤ maxMetadata := by decide
  have hread := readRange_inspectedBytes (packRef C rank (packBytes rank (before ++ page :: after)))
    (n := page.bytes.length) (by omega) (by omega) hfit
  rw [slice_packBytes] at hread
  simp only [readPage, bind_eq_ok, reject_eq_ok, exists_const, header_eq_ok]
  refine ⟨_, ⟨h.sealed_eq.context, rfl⟩, ?_, page.bytes, ?_, h.sealed_eq.openMetadata_eq hC⟩
  · simp only [pageLocator, packRef]
    push Not
    refine ⟨h.sealed_eq.key_length, h.sealed_eq.kind, by omega, by omega, hlo, hhi, by omega, by omega,
      by omega, by omega⟩
  · simp only [pageLocator, hrefsize]
    exact hread

/-- What a place in a sound catalog is. -/
structure Placed (C : Crypto) (scope : Bytes) (keys : Keys) (K : Catalog) (l : Locator)
    (body : PageBody) : Prop where
  kind : l.page.kind = body.kind
  sound : body.Sound C K l.pack.rank
  portable : l.Portable
  utf8 : Utf8 l.page.key

/-- **A page in its place** has the kind, rank and portable locator that its readers check. -/
theorem Catalog.PageAt.placed (hC : C.Lawful) (hK : K.Sound C scope keys) (h : K.PageAt C l body) :
    Placed C scope keys K l body := by
  obtain ⟨rank, before, page, after, hin, rfl, rfl⟩ := h
  have hpack : PackSound C scope keys K rank (before ++ page :: after) := hK _ hin
  have hpage := hpack.page page (by simp)
  have hlen := hpage.sealed_eq.length_eq hC
  have hplain := hpage.sealed_eq.plain_le
  have hsize := hpage.sealed_eq.size
  have hhead := length_headerBytes_le hpage.sealed_eq.context
  have hctx := hpage.sealed_eq.context
  have hfit := length_packBytes rank before after page
  have hlimit := hpack.size_le
  obtain ⟨hlo, hhi⟩ := hpage.body.rank_bounds
  refine ⟨hpage.kind, hpage.body, ?_, hpage.utf8⟩
  unfold ValidContext maxRecords at hctx
  push Not at hctx
  unfold Locator.Portable Locator.Encodable
  simp only [pageLocator, packRef, hsize]
  unfold maxPackLimit at hlimit
  have hint : (4194304 : Int) ≤ intMax := by decide
  have huint : 1024 ≤ uint32Max := by decide
  push Not
  refine ⟨⟨hctx.2.2.2.1, by omega, by omega, by omega, by omega, by omega⟩, by omega, by omega, by omega,
    by omega⟩

/-- A sound catalog whose store has one object for each digest. -/
structure Catalog.Readable (C : Crypto) (scope : Bytes) (keys : Keys) (K : Catalog) : Prop where
  lawful : C.Lawful
  sound : K.Sound C scope keys
  store : NoCollision (K.store C)

/-- The pack is one of the stored objects, and the source answers for it as for the pack alone. -/
theorem Catalog.PageAt.readPage_eq (hK : K.Readable C scope keys) (h : K.PageAt C l body) :
    readPage C (K.store C).source scope (keys.get l.page.key) l = .ok body.plain := by
  obtain ⟨rank, before, page, after, hin, rfl, rfl⟩ := h
  have hpack : PackSound C scope keys K rank (before ++ page :: after) := hK.sound _ hin
  exact readPage_mono (extends_inspectedBytes (Catalog.object_of_mem hK.store hin))
    ((hpack.page page (by simp)).readPage_eq hK.lawful hpack.size_le)

/-- **A node of a sound catalog reads as itself** at its place. -/
theorem Catalog.NodeAt.readNode_eq (hK : K.Readable C scope keys) {link : NodeReference} (h : K.NodeAt C link)
    (hvalid : validateRoot link.shape = .ok ()) :
    ∃ n, K.PageAt C link.locator (.node n) ∧ NodeSound C K link.locator.pack.rank n
      ∧ readNode C (K.store C).source scope keys link.locator link.shape link.level link.start
          = .ok n := by
  obtain ⟨n, hat, hcap, hfan, hlevel, hstart⟩ := h
  have hplaced := hat.placed hK.lawful hK.sound
  have hsound : NodeSound C K link.locator.pack.rank n := hplaced.sound
  have hown : readNode C (K.store C).source scope keys link.locator n.shape n.level n.start = .ok n :=
    readNode_eq_ok.mpr ⟨⟨hsound.valid, hsound.level_nonneg, hsound.level_le, hsound.start_lt,
      hsound.aligned, hplaced.kind, hsound.rank_eq⟩, hsound.checked, _,
      hat.readPage_eq hK, decodeNode_renderNode hsound.portable⟩
  have hdepth : link.shape.level = n.shape.level := by
    rw [(validateRoot_eq_ok.mp hvalid).2.1, ← hcap, ← hfan]
    rfl
  refine ⟨n, hat, hsound, ?_⟩
  rw [← hlevel, ← hstart]
  exact readNode_reshape hown hcap.symm hfan.symm hdepth hvalid

theorem Catalog.PageAt.readRoot_eq (hK : K.Readable C scope keys) {r : Root} (h : K.PageAt C l (.root r)) :
    readRoot C (K.store C).source scope keys l = .ok r := by
  have hplaced := h.placed hK.lawful hK.sound
  have hsound : RootSound C K l.pack.rank r := hplaced.sound
  exact readRoot_eq_ok.mpr ⟨hplaced.kind, hsound.valid, hsound.rank_eq, _,
    h.readPage_eq hK, decodeRoot_renderRoot hsound.portable⟩

/-- **A record of a segment of a sound catalog reads as its block.** -/
theorem Catalog.readBlocks_eq (hK : K.Readable C scope keys) {ref : Ref} {blocks : List Bytes} {raw : Bytes}
    (h : Item.segment ref blocks raw ∈ K) {ordinal : Nat} {x : Bytes}
    (hx : blocks[ordinal]? = some x) :
    readBlocks C (K.store C).source scope (keys.get ref.key) ref ordinal 1 = .ok x := by
  have hitem : SealedSegment C scope (keys.get ref.key) ref blocks raw ∧ Utf8 ref.key := hK.sound _ h
  exact hitem.1.readBlocks_eq hK.lawful (Catalog.object_of_mem hK.store h) hx

end Helmr.BlockFormat
