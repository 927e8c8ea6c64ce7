import Helmr.BlockFormat.Capture
import Helmr.BlockFormat.Catalog

/-!
# Block format — staging into a plain store

The host of a writer for the format's own guarantees: a sink that keeps every object it is given, a
source that answers from it, and a stream of salts. A run on it is trusted as long as no two stored
objects collide and the salts drawn so far are distinct (`fresh`).

`Staged K s` says that the store of `s` is exactly the sound catalog `K`. A sealed page gets a reference
nothing drawn before has (`triple_sealNew`, `Drawn.ne_new`), a stored object extends the catalog by its
item (`Staged.store`), and a published pack joins it with each page at the place `publish` records
(`triple_publish`, `placePages_at`). The `Grows` instances say that no program takes an object back.
-/

namespace Helmr.BlockFormat

open Wire Wire.Json Fallible Hoare

structure Staging where
  objects : Store
  drawn : Nat

/-- What a caller chooses for a writer. -/
structure WriterConfig where
  scope : Bytes
  activeKey : Bytes
  keys : Keys
  packLimit : Int

/-- A writer over a plain store. -/
def stagingWriter (rand : Nat → Digest) (cfg : WriterConfig) : Writer Staging where
  source s := s.objects.source
  storeObject d b := effect fun s => (.ok (), { s with objects := s.objects ++ [(d, b)] })
  randomSalt := effect fun s => (.ok (rand s.drawn), { s with drawn := s.drawn + 1 })
  scope := cfg.scope
  activeKey := cfg.activeKey
  keys := cfg.keys
  packLimit := cfg.packLimit

/-- No collision among the stored objects and none among the salts drawn. -/
def fresh (rand : Nat → Digest) : Ambient Staging where
  le a b := a.objects <+: b.objects ∧ a.drawn ≤ b.drawn
  refl s := ⟨List.prefix_refl _, le_refl _⟩
  trans h h' := ⟨h.1.trans h'.1, h.2.trans h'.2⟩
  holds s := NoCollision s.objects ∧ ∀ i < s.drawn, ∀ j < s.drawn, rand i = rand j → i = j
  earlier := by
    rintro a b ⟨⟨more, hobj⟩, hdrawn⟩ ⟨hcoll, hinj⟩
    rw [← hobj] at hcoll
    exact ⟨hcoll.of_append, fun i hi j hj => hinj i (hi.trans_le hdrawn) j (hj.trans_le hdrawn)⟩

/-! ## Programs over a host -/

section Growth

variable (C : Crypto) {σ : Type} {A : Ambient σ} (w : Writer σ)
  [hstore : ∀ d b, Grows A (w.storeObject d b)] [hsalt : Grows A w.randomSalt]

instance grows_sealNew (kind : UInt8) (records : List Bytes) : Grows A (w.sealNew C kind records) := by
  unfold Writer.sealNew; infer_instance

instance grows_publish (rank : Int) (pages : List StagedPage) (converted : Converted) :
    Grows A (w.publish C rank pages converted) := by
  unfold Writer.publish; infer_instance

instance grows_flushData (values : Values) (records : List Bytes) (pending : List Nat) :
    Grows A (w.flushData C values records pending) := by
  unfold Writer.flushData; infer_instance

instance grows_stageData (changes : Changes) (blocks : List Nat) (values : Values)
    (records : List Bytes) (pending : List Nat) :
    Grows A (w.stageData C changes blocks values records pending) := by
  induction blocks generalizing values records pending with
  | nil => unfold Writer.stageData; infer_instance
  | cons b rest ih =>
    have := ih
    unfold Writer.stageData; infer_instance

instance grows_placeNode (rank : Int) (empty : Nat) (below : List Ref) (b : Batch) (d : DirectNode) :
    Grows A (w.placeNode C rank empty below b d) := by
  unfold Writer.placeNode; infer_instance

instance grows_placeLevel (level : Nat) (nodes : List DirectNode) (below : List Ref)
    (converted : Converted) : Grows A (w.placeLevel C level nodes below converted) := by
  unfold Writer.placeLevel; infer_instance

instance grows_placeLevels (levels : Levels) (todo : List Nat) (below : List Ref)
    (converted : Converted) : Grows A (w.placeLevels C levels todo below converted) := by
  induction todo generalizing below converted with
  | nil => unfold Writer.placeLevels; infer_instance
  | cons level rest ih =>
    have := ih
    unfold Writer.placeLevels; infer_instance

instance grows_publishRoot (shape : Root) (converted : Converted) :
    Grows A (w.publishRoot C shape converted) := by
  unfold Writer.publishRoot; infer_instance

instance grows_stageVersion (shape : Root) (changes : Changes) (blocks : List Nat) :
    Grows A (w.stageVersion C shape changes blocks) := by
  unfold Writer.stageVersion; infer_instance

instance grows_admitChanges (base : Locator) (capacity : Int) (changes : Changes) :
    Grows A (w.admitChanges C base capacity changes) := by
  unfold Writer.admitChanges; infer_instance

instance grows_capture (base : Locator) (capacity : Int) (changes : Changes) :
    Grows A (w.capture C base capacity changes) := by
  unfold Writer.capture; infer_instance

instance grows_empty (capacity fanout : Int) : Grows A (w.empty C capacity fanout) := by
  unfold Writer.empty; infer_instance

end Growth

instance grows_storeObject (rand : Nat → Digest) (cfg : WriterConfig) (d : Digest) (b : Bytes) :
    Grows (fresh rand) ((stagingWriter rand cfg).storeObject d b) :=
  ⟨fun s => ⟨⟨[(d, b)], rfl⟩, le_refl s.drawn⟩⟩

instance grows_randomSalt (rand : Nat → Digest) (cfg : WriterConfig) :
    Grows (fresh rand) (stagingWriter rand cfg).randomSalt :=
  ⟨fun s => ⟨List.prefix_refl _, Nat.le_succ s.drawn⟩⟩

/-! ## Staged catalogs -/

structure Staged (C : Crypto) (scope : Bytes) (keys : Keys) (K : Catalog) (s : Staging) : Prop where
  objects : s.objects = K.store C
  sound : K.Sound C scope keys

theorem Staged.readable {C : Crypto} {scope : Bytes} {keys : Keys} {K : Catalog} {s : Staging}
    (h : Staged C scope keys K s) (hC : C.Lawful) (hsha : NoCollision s.objects) :
    K.Readable C scope keys :=
  ⟨hC, h.sound, h.objects ▸ hsha⟩

/-- The catalog has grown to that of the current state. -/
def Grown (C : Crypto) (scope : Bytes) (keys : Keys) (K : Catalog) (s : Staging) : Prop :=
  ∃ K', K <+: K' ∧ Staged C scope keys K' s

/-- A reference whose salt is one of the first `n`. -/
def Drawn (rand : Nat → Digest) (n : Nat) (r : Ref) : Prop := ∃ i < n, r.salt = rand i

variable {C : Crypto} {rand : Nat → Digest} {cfg : WriterConfig} {K : Catalog}

variable {n : Nat} {r : Ref} {s : Staging} {converted : Converted}

theorem Drawn.mono {m : Nat} (hnm : n ≤ m) (h : Drawn rand n r) : Drawn rand m r := by
  obtain ⟨i, hi, hsalt⟩ := h
  exact ⟨i, hi.trans_le hnm, hsalt⟩

/-- A new salt makes a new reference. -/
theorem Drawn.ne_new (hA : (fresh rand).holds s) (hn : n < s.drawn) {new : Ref} (h : Drawn rand n r)
    (hnew : new.salt = rand n) : r ≠ new := by
  rintro rfl
  obtain ⟨i, hi, hsalt⟩ := h
  have := hA.2 i (hi.trans hn) n hn (hsalt.symm.trans hnew)
  omega

/-- The descriptor `Writer.seal` fills in before sealing. -/
def newRef (rand : Nat → Digest) (cfg : WriterConfig) (n : Nat) (kind : UInt8) (records : List Bytes) :
    Ref :=
  { digest := zeroDigest, salt := rand n, key := cfg.activeKey, kind, count := records.length, size := 0 }

/-- Sealing draws one salt. -/
theorem triple_sealNew {kind : UInt8} {records : List Bytes} {P E : Staging → Prop}
    {Q : Ref × Bytes → Staging → Prop}
    (hok : ∀ s ref b, P s → (fresh rand).holds { s with drawn := s.drawn + 1 } →
      sealObject C cfg.scope (cfg.keys.get cfg.activeKey) (newRef rand cfg s.drawn kind records) records
        = .ok (ref, b) →
      Q (ref, b) { s with drawn := s.drawn + 1 })
    (herr : ∀ s, P s → E { s with drawn := s.drawn + 1 }) :
    Triple (fresh rand) P ((stagingWriter rand cfg).sealNew C kind records) Q E := by
  intro s hA hs
  have hrun : Act.from ((stagingWriter rand cfg).sealNew C kind records) s
      = (sealObject C cfg.scope (cfg.keys.get cfg.activeKey) (newRef rand cfg s.drawn kind records) records,
          { s with drawn := s.drawn + 1 }) := by
    rw [Writer.sealNew, from_bind]
    rfl
  rw [hrun] at hA ⊢
  cases hr : sealObject C cfg.scope (cfg.keys.get cfg.activeKey)
      (newRef rand cfg s.drawn kind records) records with
  | ok sealed => exact hok s sealed.1 sealed.2 hs hA hr
  | error e => exact herr s hs

theorem triple_storeObject {d : Digest} {b : Bytes} {P E : Staging → Prop} {Q : Unit → Staging → Prop}
    (hok : ∀ s, P s → Q () { s with objects := s.objects ++ [(d, b)] }) :
    Triple (fresh rand) P ((stagingWriter rand cfg).storeObject d b) Q E :=
  fun s _ hs => hok s hs

theorem Staged.draw (h : Staged C cfg.scope cfg.keys K s) :
    Staged C cfg.scope cfg.keys K { s with drawn := n } :=
  ⟨h.objects, h.sound⟩

/-- Storing a sound item extends the catalog by it. -/
theorem Staged.store (h : Staged C cfg.scope cfg.keys K s) {item : Item}
    (hitem : item.Sound C cfg.scope cfg.keys (K ++ [item])) :
    Staged C cfg.scope cfg.keys (K ++ [item])
      { s with objects := s.objects ++ [item.object C] } :=
  ⟨by simp [h.objects, Catalog.store], h.sound.append hitem⟩

theorem Grown.of_prefix {K' : Catalog} (h : K <+: K') (hs : Grown C cfg.scope cfg.keys K' s) :
    Grown C cfg.scope cfg.keys K s := by
  obtain ⟨K'', hK, hstaged⟩ := hs
  exact ⟨K'', h.trans hK, hstaged⟩

theorem Staged.grown (h : Staged C cfg.scope cfg.keys K s) : Grown C cfg.scope cfg.keys K s :=
  ⟨K, List.prefix_refl K, h⟩

/-! ## Publishing -/

theorem placePages_of_notMem {pack : PackRef} {offset : Nat} {pages : List StagedPage}
    (h : r ∉ pages.map StagedPage.ref) : placePages pack offset pages converted r = converted r := by
  induction pages generalizing offset converted with
  | nil => rfl
  | cons page rest ih =>
    simp only [List.map_cons, List.mem_cons, not_or] at h
    rw [placePages, ih h.2, Function.update_of_ne h.1]

/-- A page of a pack is recorded where it lies. -/
theorem placePages_at {pack : PackRef} {offset : Nat} {before after : List StagedPage} {page : StagedPage}
    (h : ((before ++ page :: after).map StagedPage.ref).Nodup) :
    placePages pack offset (before ++ page :: after) converted page.ref
      = some { pack, page := page.ref
               offset := (offset + (before.flatMap StagedPage.bytes).length : Nat) } := by
  induction before generalizing offset converted with
  | nil =>
    simp only [List.nil_append, List.map_cons, List.nodup_cons] at h
    rw [List.nil_append, placePages, placePages_of_notMem h.1, Function.update_self]
    simp
  | cons first before ih =>
    simp only [List.cons_append, List.map_cons, List.nodup_cons] at h
    rw [List.cons_append, placePages, ih h.2, List.flatMap_cons, List.length_append, Nat.add_assoc]

/-- **Publishing adds a pack to the catalog** and records the place of each of its pages. -/
theorem triple_publish (hlimit : cfg.packLimit ≤ maxPackLimit) {K₁ : Catalog} (hK : K₁ <+: K)
    (hstaged : Staged C cfg.scope cfg.keys K s) {rank : Int} {pages : List CatalogPage}
    (hnodup : (pages.map fun p => p.ref).Nodup) (hsound : ∀ p ∈ pages, p.Sound C cfg.scope cfg.keys K rank) :
    Triple (fresh rand) (fun t => t = s)
      ((stagingWriter rand cfg).publish C rank (pages.map CatalogPage.toStagedPage) converted)
      (fun converted' t => ∃ K' : Catalog, K <+: K' ∧ Staged C cfg.scope cfg.keys K' t ∧ t.drawn = s.drawn
        ∧ (∀ p ∈ pages, ∃ l, converted' p.ref = some l ∧ K'.PageAt C l p.body)
        ∧ ∀ r, r ∉ pages.map (fun p => p.ref) → converted' r = converted r)
      (Grown C cfg.scope cfg.keys K₁) := by
  have hrefs : (pages.map CatalogPage.toStagedPage).map StagedPage.ref = pages.map fun p => p.ref := by
    simp
  unfold Writer.publish
  refine Triple.ite (fun hempty => ?_) fun hne => ?_
  · refine Triple.pure fun t _ ht => ⟨K, List.prefix_refl K, ht ▸ hstaged, by rw [ht], ?_, fun _ _ => rfl⟩
    rw [List.map_eq_nil_iff.mp hempty]
    simp
  · have hne' : pages ≠ [] := fun h => hne (by rw [h]; rfl)
    refine Triple.attempt_bind (fun t ht => ht ▸ ⟨K, hK, hstaged⟩) fun _ hcheck => ?_
    rw [reject_eq_ok, not_lt] at hcheck
    have hsize : (packBytes rank pages).length ≤ maxPackLimit := by exact_mod_cast hcheck.trans hlimit
    refine Triple.bind (triple_storeObject fun t ht => ?_) fun _ => Triple.pure fun _ _ h => h
    subst ht
    have hsub : K ⊆ K ++ [Item.pack rank pages] := List.subset_append_left _ _
    have hitem : (Item.pack rank pages).Sound C cfg.scope cfg.keys (K ++ [Item.pack rank pages]) :=
      ⟨hne', hnodup, hsize, fun p hp => (hsound p hp).mono hsub⟩
    refine ⟨K ++ [Item.pack rank pages], List.prefix_append _ _, hstaged.store hitem, rfl,
      fun p hp => ?_, fun r hr => placePages_of_notMem (by rwa [hrefs])⟩
    obtain ⟨before, after, rfl⟩ := List.append_of_mem hp
    refine ⟨pageLocator C rank (before ++ p :: after) before p, ?_, rank, before, p, after, by simp, rfl,
      rfl⟩
    rw [List.map_append, List.map_cons] at hrefs ⊢
    rw [placePages_at (by rw [hrefs]; exact hnodup)]
    simp [pageLocator, packBytes, encodePack, List.flatMap_map]

end Helmr.BlockFormat
