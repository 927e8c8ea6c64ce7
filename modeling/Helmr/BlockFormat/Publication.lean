import Helmr.BlockFormat.Certify
import Helmr.BlockFormat.InspectStaged
import Helmr.BlockFormat.Versions

/-!
# Block format — from staging to publication to reading

The two sides of certification. What writers stage passes it (`staged_pass_inspection`): the store of a
run is a sound catalog (`Reaches.catalogs`), whose packs are certified (`Catalog.certified`) and whose
roots pass (`Catalog.Version.checkRoot_eq`). What passes it can be read, whoever wrote it
(`certified_readable`): the root's index spells some content (`exists_holds`), the reader finds the
same, and the traversal accepts what is certified (`certify_of_certified`).
-/

namespace Helmr.BlockFormat

open Wire Wire.Json Fallible Hoare

variable {C : Crypto} {rand : Nat → Digest} {scope : Bytes} {keys : Keys} {K : Catalog}

/-! ## Staged objects pass inspection -/

theorem inspectionsFrom_refs (rank : Int) (pages before rest : List CatalogPage) :
    (inspectionsFrom C rank pages before rest).map (fun p => p.locator.page) = rest.map fun p => p.ref := by
  induction rest generalizing before with
  | nil => rfl
  | cons page rest ih =>
    rw [inspectionsFrom, List.map_cons, List.map_cons, ih, PageBody.inspection_locator]
    rfl

/-- A page is inspected at the place `publish` recorded for it. -/
theorem PackSound.recorded {rank : Int} {pages : List CatalogPage}
    (h : PackSound C scope keys K rank pages) {p : PageInspection}
    (hp : p ∈ (packInspection C rank pages).pages) :
    placePages (packRef C rank (packBytes rank pages))
      (encodePack rank (pages.map CatalogPage.toStagedPage)).2 (pages.map CatalogPage.toStagedPage)
      (fun _ => none) p.locator.page = some p.locator := by
  obtain ⟨before, page, after, rfl, rfl⟩ := mem_inspectionsFrom.mp hp
  have hnodup : ((before.map CatalogPage.toStagedPage
      ++ page.toStagedPage :: after.map CatalogPage.toStagedPage).map StagedPage.ref).Nodup := by
    have := h.nodup
    rwa [show (fun p : CatalogPage => p.ref) = StagedPage.ref ∘ CatalogPage.toStagedPage from rfl,
      ← List.map_map, List.map_append (f := CatalogPage.toStagedPage)] at this
  rw [PageBody.inspection_locator, List.map_append, List.map_cons]
  refine (placePages_at hnodup).trans ?_
  simp [pageLocator, encodePack, List.flatMap_map]

/-- The packs of a catalog. -/
def Catalog.packs (C : Crypto) (K : Catalog) : Set PackRef :=
  { ref | ∃ rank pages, Item.pack rank pages ∈ K ∧ ref = packRef C rank (packBytes rank pages) }

theorem Catalog.NodeAt.mem_packs {link : NodeReference} (h : K.NodeAt C link) :
    link.locator.pack ∈ K.packs C := by
  obtain ⟨n, ⟨rank, before, page, after, hin, -, hl⟩, -⟩ := h
  exact ⟨rank, _, hin, by rw [hl]; rfl⟩

/-- **A sound catalog is certified.** -/
theorem Catalog.certified (hK : K.Readable C scope keys) :
    Certified C (K.store C).source scope keys (K.packs C) := by
  rintro _ ⟨rank, pages, hin, rfl⟩
  have hpack : PackSound C scope keys K rank pages := hK.sound _ hin
  refine ⟨_, Catalog.inspectPack_eq hK hin, fun p hp link hlink => ?_, fun p hp s hs => ?_⟩
  · obtain ⟨before, page, after, rfl, rfl⟩ := mem_inspectionsFrom.mp hp
    obtain ⟨hat, hvalid, hlt⟩ := (hpack.page page (by simp)).body.link hlink
    obtain ⟨hrank, htarget⟩ := hat.accepted hK hvalid
    refine ⟨hat.mem_packs, ?_, htarget⟩
    rw [hrank]
    exact hlt
  · obtain ⟨before, page, after, rfl, rfl⟩ := mem_inspectionsFrom.mp hp
    have hsound := (hpack.page page (by simp)).body
    cases hbody : page.body with
    | root r => simp [hbody, PageBody.inspection] at hs
    | node n =>
      rw [hbody] at hs hsound
      obtain ⟨blocks, raw, hsegment⟩ := NodeSound.segments hsound s hs
      exact Catalog.inspectSegment_eq hK hsegment

/-- The root of a cataloged version passes its check. -/
theorem Catalog.Version.checkRoot_eq (hK : K.Readable C scope keys) {l : Locator} {shape : Root} {c : Content}
    (h : K.Version C l shape c) :
    l.pack ∈ K.packs C ∧ ∃ insp, inspectPack C (K.store C).source scope keys l.pack = .ok insp
      ∧ insp.checkRoot l shape.capacity = .ok () := by
  obtain ⟨insp, hinsp, hmem⟩ := h.page.inspected hK
  refine ⟨?_, insp, hinsp, ?_⟩
  · obtain ⟨rank, before, page, after, hin, -, hl⟩ := h.page
    exact ⟨rank, _, hin, by rw [hl]; rfl⟩
  · unfold PackInspection.checkRoot
    exact if_pos ⟨_, hmem, rfl, (h.page.placed hK.lawful hK.sound).kind, rfl⟩

/-- **Everything a writer stages passes publication inspection.** The stored objects are those of a
catalog. Each of its packs is inspected as its pages, in order and at the places `publish` recorded,
and every link of a page is accepted by its target, whose rank is smaller; each of its segments is
accepted; and so is the root of every version of the history, for its capacity. -/
theorem staged_pass_inspection (hC : C.Lawful) {s : Staging} {hist : History}
    (hreach : Reaches C rand scope keys Utf8 s hist) (hsha : NoCollision s.objects)
    (hsalt : ∀ i < s.drawn, ∀ j < s.drawn, rand i = rand j → i = j) :
    ∃ K : Catalog, s.objects = K.store C
      ∧ (∀ rank pages, Item.pack rank pages ∈ K →
          ∃ insp, inspectPack C s.objects.source scope keys (packRef C rank (packBytes rank pages)) = .ok insp
            ∧ insp.pages.map (fun p => p.locator.page) = pages.map (fun p => p.ref)
            ∧ ∀ p ∈ insp.pages,
              placePages (packRef C rank (packBytes rank pages))
                  (encodePack rank (pages.map CatalogPage.toStagedPage)).2
                  (pages.map CatalogPage.toStagedPage) (fun _ => none) p.locator.page = some p.locator
              ∧ ∀ link ∈ p.children, link.locator.pack.rank < rank
                ∧ ∃ target, inspectPack C s.objects.source scope keys link.locator.pack = .ok target
                  ∧ target.checkNode link = .ok ())
      ∧ (∀ ref blocks raw, Item.segment ref blocks raw ∈ K →
          inspectSegment C s.objects.source scope (keys.get ref.key) ref = .ok ())
      ∧ ∀ v ∈ hist, ∃ insp, inspectPack C s.objects.source scope keys v.1.pack = .ok insp
          ∧ insp.checkRoot v.1 v.2.capacity = .ok () := by
  obtain ⟨K, ⟨hstaged, hversions⟩⟩ := hreach.catalogs hC ⟨hsha, hsalt⟩
  have hK := hstaged.readable hC hsha
  have hcertified := Catalog.certified hK
  refine ⟨K, hstaged.objects, ?_, ?_, ?_⟩
  all_goals rw [hstaged.objects]
  · intro rank pages hin
    have hinspect := Catalog.inspectPack_eq hK hin
    obtain ⟨insp, hinsp, hdeps⟩ := hcertified _ ⟨rank, pages, hin, rfl⟩
    cases hinspect.symm.trans hinsp
    have hpack : PackSound C scope keys K rank pages := hstaged.sound _ hin
    exact ⟨_, hinspect, inspectionsFrom_refs rank pages [] pages, fun p hp => ⟨hpack.recorded hp,
      fun link hlink => (hdeps.children p hp link hlink).2⟩⟩
  · exact fun ref blocks raw hin => Catalog.inspectSegment_eq hK hin
  · intro v hv
    obtain ⟨shape, hversion, hcap⟩ := hversions v hv
    rw [← hcap]
    exact (hversion.checkRoot_eq hK).2

/-- The objects of a run under a UTF-8 key pass inspection, and its captured root does. -/
theorem staged_pass_inspection_demo : ∃ l s, (demoRun (ascii "key")).2 = s
    ∧ ∃ insp, inspectPack plainCrypto s.objects.source (ascii "disk") (demoConfig (ascii "key")).keys l.pack
        = .ok insp ∧ insp.checkRoot l 12288 = .ok () := by
  obtain ⟨base, l, s, hdemo, hreach, hsha, hsalt⟩ := demoRun_captured
  obtain ⟨K, -, -, -, hroots⟩ := staged_pass_inspection plainCrypto_lawful hreach hsha hsalt
  exact ⟨l, s, by rw [hdemo], hroots _ (List.mem_cons_self ..)⟩

/-! ## Certified versions read -/

/-- **Certification implies readability.** Whatever the store holds, a certified root of the
capacity opens, every in-bounds range of it reads, and the traversal that certifies it ends within
six nested inspections and accepts. -/
theorem certified_readable (hC : C.Lawful) (store : Store) (scope : Bytes) (keys : Keys)
    (W : Set PackRef) (hW : Certified C store.source scope keys W) (root : Locator) (capacity : Int)
    (hroot : root.pack ∈ W) (inspection : PackInspection)
    (hinspect : inspectPack C store.source scope keys root.pack = .ok inspection)
    (hcheck : inspection.checkRoot root capacity = .ok ()) :
    (∃ t, openTree C store.source scope keys root = .ok t ∧ t.shape.capacity = capacity
      ∧ ∀ offset length : Int, 0 ≤ offset → 0 ≤ length → length ≤ maxReadBytes →
          offset + length ≤ capacity → ∃ b, t.readRange C offset length = .ok b
            ∧ (b.length : Int) = length)
      ∧ certify C store.source scope keys 6 root.pack = .ok ()
      ∧ ∀ more pack, certify C store.source scope keys (6 + more) pack
          = certify C store.source scope keys 6 pack := by
  obtain ⟨page, hpage, hloc, hkind, hcap⟩ := checkRoot_eq_ok.mp hcheck
  obtain ⟨raw, hobj, hfacts⟩ := inspectPack_pages hinspect
  obtain ⟨shape, hread, heq⟩ := inspectRoot_eq_ok.mp ((hfacts page hpage).root hkind)
  have hroot' := readRoot_mono (extends_inspectedBytes hobj) hread
  rw [hloc] at hroot'
  obtain ⟨-, hvalid, -⟩ := readRoot_eq_ok.mp hroot'
  obtain ⟨inspection', hinspect', hdeps⟩ := hW _ hroot
  cases hinspect.symm.trans hinspect'
  -- what the version holds is not known, but it holds something
  have hspells : ∃ c, Tree.Spells C { source := store.source, scope, keys, shape } c := by
    cases hindex : shape.index with
    | none => exact ⟨fun _ => 0, hvalid, by simp [hindex], fun _ _ => rfl⟩
    | some index =>
      have hlink : { locator := index, shape, level := shape.level, start := 0 } ∈ page.children := by
        rw [heq]
        simp [hindex]
      obtain ⟨hin, -, target, htarget, hlinked⟩ := hdeps.children page hpage _ hlink
      have hlevel := (validateRoot_eq_ok.mp hvalid).2.1
      obtain ⟨c, hc⟩ := exists_holds hW hvalid hC shape.level.toNat ⟨hin, ⟨_, htarget, hlinked⟩, rfl, rfl, rfl⟩
        (by rw [hlevel]; rfl)
      refine ⟨c, hvalid, fun l hl => ?_, fun h => by simp [hindex] at h⟩
      simp only [hindex, Option.mem_some_iff] at hl
      exact hl ▸ hc
  obtain ⟨c, hc⟩ := hspells
  refine ⟨⟨{ source := store.source, scope, keys, shape }, ?_, ?_,
    fun offset length h0 h1 hmax hfit => ?_⟩, ?_, certify_six⟩
  · rw [openTree, hroot', ok_bind]
  · rw [← hcap, heq]
  · have hfit' : ((offset.toNat : Int) + length.toNat) ≤ shape.capacity := by
      have : shape.capacity = capacity := by rw [← hcap, heq]
      omega
    have hrange := hc.readRange_eq hC rfl (by omega) hfit'
    rw [Int.toNat_of_nonneg h0, Int.toNat_of_nonneg h1] at hrange
    exact ⟨_, hrange, by rw [length_window]; omega⟩
  · refine certify_of_certified hW 6 hroot ?_
    by_contra hrank
    rw [inspectPack_rank (.inr (by omega))] at hinspect
    cases hinspect

/-- The catalog of a run is a certified store; its captured version opens. -/
theorem certified_readable_demo : ∃ l t, openTree plainCrypto (demoRun (ascii "key")).2.objects.source
    (ascii "disk") (demoConfig (ascii "key")).keys l = .ok t ∧ t.shape.capacity = 12288 := by
  obtain ⟨base, l, s, hdemo, hreach, hsha, hsalt⟩ := demoRun_captured
  obtain ⟨K, hstaged, hversions⟩ := hreach.catalogs plainCrypto_lawful ⟨hsha, hsalt⟩
  obtain ⟨shape, hversion, hcap⟩ := hversions _ (List.mem_cons_self ..)
  have hK := hstaged.readable plainCrypto_lawful hsha
  obtain ⟨hroot, insp, hinsp, hcheck⟩ := hversion.checkRoot_eq hK
  obtain ⟨⟨t, hopen, htcap, -⟩, -⟩ := certified_readable plainCrypto_lawful (K.store plainCrypto) _ _ _
    (Catalog.certified hK) l shape.capacity hroot insp hinsp hcheck
  refine ⟨l, t, ?_, by rw [htcap, hcap]; rfl⟩
  rw [hdemo, ← hopen]
  simp only [hstaged.objects]

end Helmr.BlockFormat
