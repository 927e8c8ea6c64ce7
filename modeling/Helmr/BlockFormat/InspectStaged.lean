import Helmr.BlockFormat.Catalog

/-!
# Block format — cataloged objects pass inspection

The writer's side of publication.

* `CatalogPage.Sound.inspectPage_eq`, `PackSound.inspectPages_eq`: a page is inspected as its document, and the
  loop over a directory goes from page to page, which tile the pack in order.
* `Catalog.inspectPack_eq`: so the inspection of a pack returns its pages, each at the place `publish` recorded.
* `PageBody.Sound.link`, `Catalog.NodeAt.accepted`: a link of a page leads to a cataloged node, one level down,
  and passes `checkNode` in its target's inspection.
* `Catalog.inspectSegment_eq`: segments pass, frame by frame (`SealedSegment.inspectFrames_eq`).
-/

namespace Helmr.BlockFormat

open Wire Wire.Json Fallible

variable {C : Crypto} {scope : Bytes} {keys : Keys} {K : Catalog}

/-! ## Pages -/

/-- What inspection reports of a page. -/
def PageBody.inspection (loc : Locator) : PageBody → PageInspection
  | node n =>
    { locator := loc, shape := n.shape, level := n.level, start := n.start
      children := n.links n.shape, segments := n.segments }
  | root r =>
    { locator := loc, shape := r, level := -1, start := 0, segments := []
      children := r.index.toList.map fun index =>
        { locator := index, shape := r, level := r.level, start := 0 } }

theorem PageBody.inspection_locator (loc : Locator) (body : PageBody) :
    (body.inspection loc).locator = loc := by
  cases body <;> rfl

/-- The inspection of the pages that follow `before` in the pack of `pages`. -/
def inspectionsFrom (C : Crypto) (rank : Int) (pages : List CatalogPage) :
    (before rest : List CatalogPage) → List PageInspection
  | _, [] => []
  | before, page :: rest =>
    page.body.inspection (pageLocator C rank pages before page)
      :: inspectionsFrom C rank pages (before ++ [page]) rest

/-- The inspection of a whole pack. -/
def packInspection (C : Crypto) (rank : Int) (pages : List CatalogPage) : PackInspection :=
  { pages := inspectionsFrom C rank pages [] pages, keys := pageKeys (pages.map fun p => p.ref) }

variable {rank : Int} {pages : List CatalogPage} {ref : Ref} {blocks : List Bytes} {raw : Bytes}

/-- An inspected page of a pack is the document of one of its pages, behind the pages before it. -/
theorem mem_inspectionsFrom {before rest : List CatalogPage} {p : PageInspection} :
    p ∈ inspectionsFrom C rank pages before rest ↔ ∃ mid page after, rest = mid ++ page :: after
      ∧ p = page.body.inspection (pageLocator C rank pages (before ++ mid) page) := by
  induction rest generalizing before with
  | nil => simp [inspectionsFrom]
  | cons first rest ih =>
    rw [inspectionsFrom, List.mem_cons, ih]
    constructor
    · rintro (rfl | ⟨mid, page, after, rfl, rfl⟩)
      · exact ⟨[], first, rest, rfl, by rw [List.append_nil]⟩
      · exact ⟨first :: mid, page, after, rfl, by rw [List.append_assoc]; rfl⟩
    · rintro ⟨mid, page, after, heq, rfl⟩
      cases mid with
      | nil =>
        cases heq
        exact .inl (by rw [List.append_nil])
      | cons x mid =>
        cases heq
        exact .inr ⟨mid, page, after, rfl, by rw [List.append_assoc]; rfl⟩

theorem SealedSegment.validSegment {key : Bytes} (h : SealedSegment C scope key ref blocks raw) :
    ValidSegment scope ref :=
  ⟨h.context, h.kind, h.size_eq⟩

/-- A sound page is inspected as its document. -/
theorem CatalogPage.Sound.inspectPage_eq (hC : C.Lawful) (hK : K.Sound C scope keys)
    {before after : List CatalogPage} {page : CatalogPage} (h : page.Sound C scope keys K rank)
    (hsize : (packBytes rank (before ++ page :: after)).length ≤ maxPackLimit) :
    inspectPage C
      (inspectedBytes (packRef C rank (packBytes rank (before ++ page :: after)))
        (packBytes rank (before ++ page :: after)))
      scope keys (pageLocator C rank (before ++ page :: after) before page) page.body.plain
      = .ok (page.body.inspection (pageLocator C rank (before ++ page :: after) before page)) := by
  have hread := h.readPage_eq hC hsize
  have hkind : (pageLocator C rank (before ++ page :: after) before page).page.kind = page.body.kind :=
    h.kind
  have hsound := h.body
  generalize hloc : pageLocator C rank (before ++ page :: after) before page = loc at hread hkind ⊢
  have hrank : loc.pack.rank = rank := by rw [← hloc]; rfl
  have hkey : page.ref.key = loc.page.key := by rw [← hloc]; rfl
  rw [hkey] at hread
  unfold inspectPage
  -- a root is read as such; a node is read back at its own root, level and start
  cases hbody : page.body with
  | root r =>
    rw [hbody] at hread hkind hsound
    have hr : RootSound C K rank r := hsound
    have hroot : loc.page.kind = rootKind := hkind
    rw [if_pos hroot]
    exact inspectRoot_eq_ok.mpr ⟨r, readRoot_eq_ok.mpr ⟨hkind, hr.valid, by rw [hrank]; exact hr.rank_eq,
      _, hread, decodeRoot_renderRoot hr.portable⟩, rfl⟩
  | node n =>
    rw [hbody] at hread hkind hsound
    have hn : NodeSound C K rank n := hsound
    have hdecode := decodeNode_renderNode hn.portable
    have hnode : loc.page.kind = nodeKind := hkind
    rw [if_neg (by rw [hnode]; decide)]
    simp only [inspectNode, bind_eq_ok, reject_eq_ok, exists_const, not_not]
    refine ⟨n, hdecode, (validateRoot_eq_ok.mp hn.valid).1, n, ?_, ?_, rfl⟩
    · exact readNode_eq_ok.mpr ⟨⟨hn.valid, hn.level_nonneg, hn.level_le, hn.start_lt, hn.aligned, hkind,
        by rw [hrank]; exact hn.rank_eq⟩, hn.checked, _, hread, hdecode⟩
    · push Not
      intro s hs
      obtain ⟨blocks, raw, hin⟩ := hn.segments s hs
      have hitem : SealedSegment C scope (keys.get s.key) s blocks raw ∧ Utf8 s.key := hK _ hin
      exact hitem.1.validSegment

/-- The directory loop from any page on. Induction on the pages still to come. -/
theorem PackSound.inspectPages_eq (hC : C.Lawful) (hK : K.Sound C scope keys)
    (h : PackSound C scope keys K rank pages) (before rest : List CatalogPage)
    (hsplit : pages = before ++ rest) {seen : List Ref} (hseen : ∀ r ∈ seen, r ∈ before.map fun p => p.ref) :
    inspectPages C (inspectedBytes (packRef C rank (packBytes rank pages)) (packBytes rank pages)) scope keys
      (packRef C rank (packBytes rank pages))
      (((packHead rank (pages.map CatalogPage.toStagedPage)).length
        + (before.flatMap fun p => p.bytes).length : Nat)) seen (rest.map fun p => p.ref)
      = .ok (inspectionsFrom C rank pages before rest, ((packBytes rank pages).length : Int)) := by
  induction rest generalizing before seen with
  | nil =>
    rw [List.append_nil] at hsplit
    rw [List.map_nil, inspectPages, ← hsplit, packBytes_eq, List.length_append]
    rfl
  | cons page rest ih =>
    have hpage := h.page page (by rw [hsplit]; simp)
    -- no page stands twice in the directory of a sound pack
    have hnew : page.ref ∉ seen := by
      intro hin
      have hnodup := h.nodup
      rw [hsplit, List.map_append, List.nodup_append] at hnodup
      exact hnodup.2.2 _ (hseen _ hin) page.ref (by simp) rfl
    have hsize : (packBytes rank (before ++ page :: rest)).length ≤ maxPackLimit := by
      rw [← hsplit]; exact h.size_le
    have hread := hpage.readPage_eq hC hsize
    have hinspect := hpage.inspectPage_eq hC hK hsize
    rw [← hsplit] at hread hinspect
    have hseen' : ∀ r ∈ page.ref :: seen, r ∈ (before ++ [page]).map fun p => p.ref := by
      intro r hr
      rw [List.map_append, List.mem_append]
      rcases List.mem_cons.mp hr with rfl | hr
      · exact .inr (by simp)
      · exact .inl (hseen r hr)
    have hrest := ih (before ++ [page]) (by rw [hsplit]; simp) hseen'
    simp only [List.map_cons, inspectPages, bind_eq_ok, reject_eq_ok, exists_const]
    refine ⟨hnew, _, hread, _, hinspect, (_, _), ?_, rfl⟩
    rw [← hrest, hpage.sealed_eq.size]
    congr 1
    rw [List.flatMap_append, List.length_append]
    simp only [List.flatMap_cons, List.flatMap_nil, List.append_nil]
    push_cast
    ring

/-! ## Packs -/

theorem CatalogPage.Sound.portable {page : CatalogPage} (h : page.Sound C scope keys K rank)
    (hsize : page.bytes.length ≤ maxPackLimit) : page.ref.Portable := by
  have hctx := h.sealed_eq.context
  unfold ValidContext maxRecords at hctx
  push Not at hctx
  have hmin : intMin ≤ 0 := by decide
  have hint : ((maxPackLimit : Nat) : Int) ≤ intMax := by decide
  have huint : 1024 ≤ uint32Max := by decide
  have := h.sealed_eq.size
  exact ⟨h.utf8, by omega, by omega, by omega⟩

theorem packHead_parts (rank : Int) (pages : List CatalogPage) (tail : Bytes) :
    let dir := renderDirectory { rank, pages := pages.map fun p => p.ref }
    let raw := packHead rank (pages.map CatalogPage.toStagedPage) ++ tail
    raw.take 4 = ascii "HGP0" ∧ slice raw 4 4 = beBytes 4 dir.length ∧ slice raw 8 dir.length = dir
      ∧ (packHead rank (pages.map CatalogPage.toStagedPage)).length = 8 + dir.length := by
  intro dir raw
  have hrefs : (pages.map CatalogPage.toStagedPage).map StagedPage.ref = pages.map fun p => p.ref := by simp
  have hraw : raw = ascii "HGP0" ++ (beBytes 4 dir.length ++ (dir ++ tail)) := by
    simp only [raw, packHead, hrefs, List.append_assoc]
    rfl
  have hmagic : (ascii "HGP0").length = 4 := by decide
  refine ⟨?_, ?_, ?_, ?_⟩
  · rw [hraw, ← hmagic, List.take_left]
  · have := slice_middle (ascii "HGP0") (beBytes 4 dir.length) (dir ++ tail)
    rwa [hmagic, length_beBytes, List.append_assoc, ← hraw] at this
  · have := slice_middle (ascii "HGP0" ++ beBytes 4 dir.length) dir tail
    rwa [List.length_append, hmagic, length_beBytes, List.append_assoc, List.append_assoc, ← hraw] at this
  · simp only [packHead, hrefs, List.length_append, hmagic, length_beBytes]
    rfl

theorem inspectionBytes_eq {store : Store} (hobj : store.object (C.sha256 raw) = some raw)
    (hlo : 8 ≤ raw.length) (hhi : raw.length ≤ maxPackLimit) :
    inspectionBytes C store.source (C.sha256 raw) raw.length = .ok raw := by
  simp only [inspectionBytes, bind_eq_ok, reject_eq_ok, exists_const, Store.source, hobj]
  refine ⟨by push Not; omega, raw, ?_, ?_⟩
  · rw [if_neg (by push Not; omega), Int.toNat_zero, Int.toNat_natCast, slice_zero_length]
  · rw [List.take_of_length_le (by omega)]
    exact ⟨by push Not; exact ⟨rfl, rfl⟩, rfl⟩

/-- **A pack of a sound catalog passes inspection**, which returns its pages in order at their
places. -/
theorem Catalog.inspectPack_eq (hK : K.Readable C scope keys)
    (h : Item.pack rank pages ∈ K) :
    inspectPack C (K.store C).source scope keys (packRef C rank (packBytes rank pages))
      = .ok (packInspection C rank pages) := by
  have hpack : PackSound C scope keys K rank pages := hK.sound _ h
  obtain ⟨first, hfirst⟩ := List.exists_mem_of_ne_nil pages hpack.nonempty
  obtain ⟨hlo, hhi⟩ := (hpack.page first hfirst).body.rank_bounds
  have hsize := hpack.size_le
  obtain ⟨hmagic, hcount, hdir, hhead⟩ := packHead_parts rank pages (pages.flatMap fun p => p.bytes)
  rw [← packBytes_eq] at hmagic hcount hdir
  generalize hd : renderDirectory { rank, pages := pages.map fun p => p.ref } = dir at hcount hdir hhead
  have hlen : (packBytes rank pages).length
      = 8 + dir.length + (pages.flatMap fun p => p.bytes).length := by
    rw [packBytes_eq, List.length_append, hhead]
  have hmax : maxPackLimit < 256 ^ 4 := by decide
  have hn : beNat (slice (packBytes rank pages) 4 4) = dir.length := by
    rw [hcount, beNat_beBytes (by omega)]
  have hpages := hpack.inspectPages_eq hK.lawful hK.sound [] pages rfl (List.forall_mem_nil _)
  rw [List.flatMap_nil, List.length_nil, Nat.add_zero, hhead] at hpages
  have hmin : intMin ≤ 0 := by decide
  have hint : (6 : Int) ≤ intMax := by decide
  -- the directory reads back, since all of its numbers fit
  have hportable : PackDirectory.Portable { rank, pages := pages.map fun p => p.ref } := by
    refine ⟨⟨by show intMin ≤ rank; omega, by show rank ≤ intMax; omega⟩, fun r hr => ?_⟩
    obtain ⟨p, hp, rfl⟩ := List.mem_map.mp hr
    obtain ⟨before, after, rfl⟩ := List.append_of_mem hp
    have := length_packBytes rank before after p
    exact (hpack.page p hp).portable (by omega)
  have hdecode : decodeDirectory (slice (packBytes rank pages) 8 dir.length)
      = .ok { rank, pages := pages.map fun p => p.ref } := by
    rw [hdir, ← hd]
    exact decodeDirectory_renderDirectory hportable
  simp only [inspectPack, bind_eq_ok, reject_eq_ok, exists_const]
  refine ⟨by show ¬(rank < 1 ∨ rank > 6); push Not; exact ⟨hlo, hhi⟩, packBytes rank pages,
    inspectionBytes_eq (Catalog.object_of_mem hK.store h) (by omega) hsize, not_not.mpr hmagic, ?_⟩
  rw [hn]
  refine ⟨by push Not; omega, _, hdecode, ?_, (_, _), hpages, not_not.mpr rfl, rfl⟩
  push Not
  exact ⟨rfl, by simpa using hpack.nonempty⟩

/-! ## Links -/

/-- The page at a place is found in the inspection of its pack. -/
theorem Catalog.PageAt.inspected (hK : K.Readable C scope keys) {l : Locator} {body : PageBody} (h : K.PageAt C l body) :
    ∃ insp, inspectPack C (K.store C).source scope keys l.pack = .ok insp
      ∧ body.inspection l ∈ insp.pages := by
  obtain ⟨rank, before, page, after, hin, rfl, rfl⟩ := h
  exact ⟨_, Catalog.inspectPack_eq hK hin,
    mem_inspectionsFrom.mpr ⟨before, page, after, rfl, by rw [List.nil_append]⟩⟩

/-- **A link between cataloged pages is accepted** by the inspection of its target. -/
theorem Catalog.NodeAt.accepted (hK : K.Readable C scope keys) {link : NodeReference} (h : K.NodeAt C link)
    (hvalid : validateRoot link.shape = .ok ()) :
    link.locator.pack.rank = link.level + 1 ∧
      ∃ insp, inspectPack C (K.store C).source scope keys link.locator.pack = .ok insp
        ∧ insp.checkNode link = .ok () := by
  obtain ⟨n, hat, hcap, hfan, hlevel, hstart⟩ := h
  have hplaced := hat.placed hK.lawful hK.sound
  obtain ⟨insp, hinsp, hmem⟩ := hat.inspected hK
  have hdepth : n.shape.level = link.shape.level := by
    rw [(validateRoot_eq_ok.mp hvalid).2.1, ← hcap, ← hfan]
    rfl
  refine ⟨by rw [← hlevel]; exact NodeSound.rank_eq hplaced.sound, insp, hinsp, ?_⟩
  unfold PackInspection.checkNode
  exact if_pos ⟨_, hmem, rfl, hplaced.kind, hcap, hfan, hdepth, hlevel, hstart⟩

/-- The links inspection reports of a sound page lead to nodes of the catalog, one level down. -/
theorem PageBody.Sound.link {body : PageBody} (h : body.Sound C K rank) {loc : Locator}
    {link : NodeReference} (hlink : link ∈ (body.inspection loc).children) :
    K.NodeAt C link ∧ validateRoot link.shape = .ok () ∧ link.level + 1 < rank := by
  cases body with
  | node n =>
    have hn : NodeSound C K rank n := h
    refine ⟨hn.links link hlink, ?_⟩
    obtain ⟨e, -, hsome⟩ := List.mem_filterMap.mp hlink
    obtain ⟨child, -, rfl⟩ := Option.map_eq_some_iff.mp hsome
    refine ⟨hn.valid, ?_⟩
    have := hn.rank_eq
    simp only
    omega
  | root r =>
    have hr : RootSound C K rank r := h
    obtain ⟨index, hindex, rfl⟩ := List.mem_map.mp hlink
    refine ⟨hr.links index (by simpa using hindex), hr.valid, ?_⟩
    have := hr.rank_eq
    simp only
    omega

/-! ## Segments -/

theorem SealedSegment.inspectFrames_eq (hC : C.Lawful) {key : Bytes}
    (h : SealedSegment C scope key ref blocks raw) (left i : Nat) (hleft : i + left = blocks.length) :
    inspectFrames C scope key ref (headerBytes scope ref) i left
      (raw.drop ((headerBytes scope ref).length + i * frameSize)) = .ok [] := by
  have hlength : raw.length = (headerBytes scope ref).length + blocks.length * frameSize := by
    obtain ⟨body, hb, hlen, -⟩ := h.bytes
    rw [hb, List.length_append, hlen]
  induction left generalizing i with
  | zero =>
    rw [inspectFrames, List.drop_eq_nil_of_le]
    rw [hlength, ← hleft]
    rfl
  | succ left ih =>
    have hi : i < blocks.length := by omega
    have hopen := h.openBlock_eq hC (List.getElem?_eq_getElem hi)
    have hspan : i * frameSize + frameSize ≤ blocks.length * frameSize := by
      rw [← Nat.succ_mul]
      exact Nat.mul_le_mul_right _ hi
    simp only [inspectFrames, bind_eq_ok, reject_eq_ok, exists_const]
    refine ⟨by rw [List.length_drop, hlength]; omega, _, hopen, ?_⟩
    rw [List.drop_drop, Nat.add_assoc, ← Nat.succ_mul]
    exact ih (i + 1) (by omega)

/-- **A segment of a sound catalog passes inspection.** -/
theorem Catalog.inspectSegment_eq (hK : K.Readable C scope keys) (h : Item.segment ref blocks raw ∈ K) :
    inspectSegment C (K.store C).source scope (keys.get ref.key) ref = .ok () := by
  have hitem : SealedSegment C scope (keys.get ref.key) ref blocks raw ∧ Utf8 ref.key := hK.sound _ h
  obtain ⟨hsealed, -⟩ := hitem
  have hobj : (K.store C).object ref.digest = some raw := Catalog.object_of_mem hK.store h
  have hframes := hsealed.inspectFrames_eq hK.lawful blocks.length 0 (Nat.zero_add _)
  rw [Nat.zero_mul, Nat.add_zero, ← hsealed.count] at hframes
  have hhead : raw.take (headerBytes scope ref).length = headerBytes scope ref := hsealed.slice_header
  have hlen : (headerBytes scope ref).length ≤ raw.length := by
    rw [← hhead, List.length_take]
    exact Nat.min_le_right _ _
  simp only [inspectSegment, bind_eq_ok, reject_eq_ok, exists_const, header_eq_ok, Store.source, hobj]
  refine ⟨_, ⟨hsealed.context, rfl⟩, by push Not; exact ⟨hsealed.key_length, hsealed.kind, hsealed.size_eq⟩,
    raw, ?_, ?_⟩
  · rw [if_neg (by rw [hsealed.size]; push Not; omega), hsealed.size, Int.toNat_zero, Int.toNat_natCast,
      slice_zero_length]
  · rw [List.take_of_length_le (by rw [hsealed.size]; omega), hhead]
    exact ⟨by omega, [], hframes, by simp, not_not.mpr hsealed.digest.symm⟩

end Helmr.BlockFormat
