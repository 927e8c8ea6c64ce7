import Helmr.BlockFormat.Placement

/-!
# Block format — what a capture leaves behind

The phases put together: the new version of a capture has the base's content with the changed blocks
replaced (`triple_capture`), and an empty version is all zero (`triple_empty`). Both stage a version
(`triple_stageVersion`): data, the plan of the changed nodes, their places, and a root over the top node
(`triple_publishRoot`, `rootSound_of_index`). What `Capture` checks first is `triple_admitChanges`. A
failed call may leave objects behind, but they only extend the catalog.
-/

namespace Helmr.BlockFormat

open Wire Wire.Json Fallible Hoare

variable {C : Crypto} {scope : Bytes} {keys : Keys} {rand : Nat → Digest} {cfg : WriterConfig}
  {K₁ K : Catalog} {shape : Root} {c : Content}

/-! ## Roots -/

/-- A subtree depends on the capacity and the fanout of its version only. -/
theorem Catalog.Holds.reshape {shape' : Root} {level : Nat} {l : Locator} {start : Nat}
    (h : K.Holds C shape c level l start) (hcap : shape'.capacity = shape.capacity)
    (hfan : shape'.fanout = shape.fanout) : K.Holds C shape' c level l start := by
  have hat : ∀ {n : Node} {level start}, n.At shape level start → n.At shape' level start :=
    fun h => ⟨h.capacity.trans hcap.symm, h.fanout.trans hfan.symm, h.level_eq, h.start_eq⟩
  induction level generalizing l start with
  | zero =>
    obtain ⟨n, hpage, hn, hne, hleaf⟩ := h
    exact ⟨n, hpage, hat hn, hne, by rw [hfan]; exact hleaf.sparse, hleaf.record⟩
  | succ level ih =>
    obtain ⟨n, hpage, hn, hne, hinner⟩ := h
    refine ⟨n, hpage, hat hn, hne, by rw [hfan]; exact hinner.sparse, fun e he => ?_⟩
    obtain ⟨child, hchild, hbelow⟩ := hinner.child e he
    exact ⟨child, hchild, by rw [hfan]; exact ih hbelow⟩

theorem validateRoot_level (hlevel : shape.level = treeLevel shape.capacity shape.fanout) :
    ((shape.level.toNat : Nat) : Int) = shape.level := by
  rw [hlevel, Int.toNat_natCast]

/-- A root over a placed top node is sound. -/
theorem rootSound_of_index (hC : C.Lawful) (hK : K.Sound C scope keys)
    (hgeo : ValidGeometry shape.capacity shape.fanout)
    (hlevel : shape.level = treeLevel shape.capacity shape.fanout)
    (hindex : ∀ i ∈ shape.index, K.Holds C shape c shape.level.toNat i 0) :
    RootSound C K (shape.level + 2) shape := by
  have hcast := validateRoot_level hlevel
  have hvalid : validateRoot shape = .ok () :=
    validateRoot_eq_ok.mpr ⟨hgeo, hlevel, fun l hl => by
      obtain ⟨hkind, hrank, -⟩ := (hindex l hl).link hC hK
      exact ⟨hkind, by rw [hrank, hcast]⟩⟩
  have hfour := hgeo.treeLevel_le
  have hcap := hgeo.capacity_eq
  have hbytes := Nat.mul_le_mul_right blockSize hgeo.blockCount_le
  have hmin : intMin ≤ 0 := by decide
  have hmax : ((maxBlocks * blockSize : Nat) : Int) ≤ intMax := by decide
  have hsmall : (256 : Int) ≤ intMax := by decide
  refine ⟨hvalid, rfl, ⟨⟨by omega, by omega⟩, ?_, ⟨by omega, by omega⟩,
    fun l hl => ((hindex l hl).link hC hK).2.2⟩, fun l hl => ?_⟩
  · rcases hgeo.fanout_cases with h | h <;> rw [h] <;> constructor <;> omega
  · have := (hindex l hl).nodeAt
    rwa [hcast] at this

/-- The root page goes out in a pack of its own, and its version is the catalog's. -/
theorem triple_publishRoot (shape : Root) (hC : C.Lawful) (hutf : Utf8 cfg.activeKey)
    (hlimit : cfg.packLimit ≤ maxPackLimit) (hgeo : ValidGeometry shape.capacity shape.fanout)
    (hlevel : shape.level = treeLevel shape.capacity shape.fanout) {converted : Converted} :
    Triple (fresh rand) (fun s => ∃ K : Catalog, K₁ <+: K ∧ Staged C cfg.scope cfg.keys K s
        ∧ ∀ i ∈ shape.index, K.Holds C shape c shape.level.toNat i 0)
      ((stagingWriter rand cfg).publishRoot C shape converted)
      (fun l s => ∃ K : Catalog, K₁ <+: K ∧ Staged C cfg.scope cfg.keys K s
        ∧ K.PageAt C l (.root shape) ∧ ∀ i ∈ shape.index, K.Holds C shape c shape.level.toNat i 0)
      (Grown C cfg.scope cfg.keys K₁) := by
  refine Triple.of_pre fun s₀ _ hs₀ => ?_
  obtain ⟨K, hK, hstaged, hindex⟩ := hs₀
  have hsound := rootSound_of_index hC hstaged.sound hgeo hlevel hindex
  unfold Writer.publishRoot
  refine Triple.attempt_bind (fun _ hs => hs ▸ ⟨K, hK, hstaged⟩) fun plain hplain => ?_
  have hrendered : plain = renderRoot shape := by
    unfold marshalRoot at hplain
    split at hplain
    · exact (Except.ok.inj hplain).symm
    · cases hplain
  rw [hrendered]
  refine Triple.bind (Q := fun sealed s => Staged C cfg.scope cfg.keys K s
    ∧ ({ ref := sealed.1, bytes := sealed.2, body := .root shape } : CatalogPage).Sound C cfg.scope
        cfg.keys K (shape.level + 2))
    (triple_sealNew (fun s ref bytes hs _ hseal => ?_) fun s hs => ?_) fun sealed => ?_
  · cases hs
    exact ⟨hstaged.draw, (sealedPage_sound (.root shape) hutf hsound hseal).1⟩
  · cases hs
    exact ⟨K, hK, hstaged.draw⟩
  refine Triple.of_pre fun s₁ _ hs₁ => ?_
  obtain ⟨hstaged₁, hpage⟩ := hs₁
  -- the pack of this one page is published over the catalog that holds the index
  generalize hp : ({ ref := sealed.1, bytes := sealed.2, body := .root shape } : CatalogPage) = page at hpage
  have hbody : page.body = .root shape := by rw [← hp]
  rw [show [({ ref := sealed.1, bytes := sealed.2 } : StagedPage)] = [page].map CatalogPage.toStagedPage by
    rw [← hp]; rfl, show sealed.1 = page.ref by rw [← hp]]
  refine Triple.bind (triple_publish hlimit hK hstaged₁ (by simp) (by simpa using hpage)) fun converted' =>
    Triple.pure ?_
  rintro s - ⟨K', hK', hstaged', -, hplaced, -⟩
  obtain ⟨l, hl, hat⟩ := hplaced _ (List.mem_singleton_self _)
  refine ⟨K', hK.trans hK', hstaged', ?_, fun i hi => (hindex i hi).mono hK'.subset⟩
  rw [hl, Option.getD_some, ← hbody]
  exact hat

/-! ## Versions -/

/-- The staged blocks are those of the change map. -/
structure Selected (shape : Root) (changes : Changes) (blocks : List Nat) : Prop where
  nodup : blocks.Nodup
  mem : ∀ b, b ∈ blocks ↔ (changes.lookup b).isSome
  block : ∀ b data, changes.lookup b = some data →
    data.length = blockSize ∧ b < blockCount shape.capacity

variable {changes : Changes} {base : Locator}

/-- Changes within the capacity leave everything beyond it zero. -/
theorem overlay_beyond (hgeo : ValidGeometry shape.capacity shape.fanout)
    (hblock : ∀ b data, changes.lookup b = some data → b < blockCount shape.capacity)
    (hc : ∀ p : Nat, shape.capacity ≤ p → c p = 0) (p : Nat) (hp : shape.capacity ≤ p) :
    overlay changes c p = 0 := by
  have hbeyond : blockCount shape.capacity ≤ p / blockSize := by
    rw [Nat.le_div_iff_mul_le (by decide)]
    have := hgeo.capacity_eq
    omega
  have hnone : changes.lookup (p / blockSize) = none := by
    by_contra hsome
    obtain ⟨data, hdata⟩ := Option.ne_none_iff_exists'.mp hsome
    have := hblock _ _ hdata
    omega
  rw [overlay_of_none hnone (Nat.div_mul_le_self _ _) (Nat.lt_mul_of_div_lt (Nat.lt_succ_self _) (by decide))]
  exact hc p hp

/-- What a call that returns a version leaves: the catalog has grown by it. -/
def Publishes (C : Crypto) (cfg : WriterConfig) (K : Catalog) (capacity : Int) (c : Content) (l : Locator)
    (s : Staging) : Prop :=
  ∃ (K' : Catalog) (shape : Root), K <+: K' ∧ Staged C cfg.scope cfg.keys K' s ∧ K'.Version C l shape c
    ∧ shape.capacity = capacity

/-- **A staged version has the changed content.** -/
theorem triple_stageVersion (hC : C.Lawful) (hutf : Utf8 cfg.activeKey)
    (hlimit : cfg.packLimit ≤ maxPackLimit) (hbase : K.Version C base shape c)
    (hvalid : validateRoot shape = .ok ()) {blocks : List Nat} (hblocks : Selected shape changes blocks) :
    Triple (fresh rand) (Staged C cfg.scope cfg.keys K)
      ((stagingWriter rand cfg).stageVersion C shape changes blocks)
      (Publishes C cfg K shape.capacity (overlay changes c)) (Grown C cfg.scope cfg.keys K) := by
  obtain ⟨hgeo, hlevel, -⟩ := validateRoot_eq_ok.mp hvalid
  have hcast := validateRoot_level hlevel
  have hcover : blockCount shape.capacity ≤ 0 + stride shape.fanout (((shape.level.toNat : Nat) : Int) + 1) := by
    have := hgeo.blockCount_le_stride
    rw [hcast, hlevel]
    omega
  have hfits : Fits shape shape.level.toNat 0 :=
    ⟨by rw [hcast], hgeo.blockCount_pos, Nat.zero_mod _⟩
  have hchanged : ChangedIn changes 0 (0 + stride shape.fanout (((shape.level.toNat : Nat) : Int) + 1)) blocks := by
    refine ⟨fun b hb => ⟨Nat.zero_le b, ?_⟩, fun b _ _ => hblocks.mem b⟩
    obtain ⟨data, hdata⟩ := Option.isSome_iff_exists.mp ((hblocks.mem b).mp hb)
    exact (hblocks.block b data hdata).2.trans_le hcover
  unfold Writer.stageVersion
  refine Triple.bind ((triple_stageData hC hutf blocks [] [] hblocks.nodup (List.nil_subset _)
    List.nodup_nil (by simp)).pre fun s hs => ⟨K, List.prefix_refl K, hs, by simp⟩) fun values => ?_
  refine Triple.of_pre fun s₁ hfresh₁ hs₁ => ?_
  obtain ⟨K₁, hK₁, hstaged₁, hlocated⟩ := hs₁
  have hvalues : ChangesStaged K₁ shape changes values :=
    ⟨hblocks.block, fun b data hdata =>
      hlocated b (by simpa using (hblocks.mem b).mpr (by rw [hdata]; rfl)) List.not_mem_nil⟩
  have hold : BaseHolds C K₁ shape c shape.level.toNat shape.index 0 := by
    unfold BaseHolds
    cases hi : shape.index with
    | none => exact fun blk _ _ p _ _ => hbase.empty hi p
    | some i => exact (hbase.index i hi).mono hK₁.subset
  refine Triple.bind (Q := fun top s => s = s₁ ∧ AllPlanned C K₁ shape (overlay changes c) top.2
    ∧ Rebuilt C K₁ shape (overlay changes c) top.2 shape.level.toNat 0 top.1)
    (Triple.reads (fun s top h _ hs => ?_) fun s hs => hs ▸ ⟨K₁, hK₁, hstaged₁⟩) fun top => ?_
  · cases hs
    have hspec := update_spec (c := c) (hstaged₁.readable hC hfresh₁.1) hvalid hvalues
      shape.level.toNat
    rw [← hstaged₁.objects] at hspec
    exact ⟨rfl, (hspec _ _ _ _ _ _ hfits hold hchanged (fun _ _ h => absurd h (Nat.not_lt_zero _)) h).2⟩
  refine Triple.of_pre fun s₂ _ hs₂ => ?_
  obtain ⟨rfl, hall, htop⟩ := hs₂
  rw [List.range_eq_range']
  refine Triple.bind ((triple_placeLevels hC hvalid hutf hlimit hall (shape.level.toNat + 1) 0).conseq ?_
    (fun _ _ h => h) fun _ h => h.of_prefix hK₁) fun placed => ?_
  · rintro _ rfl
    exact ⟨K₁, List.prefix_refl _, hstaged₁, trivial, fun r l hl => by cases hl⟩
  -- the new index leads to the rebuilt top node, or the rebuilt content is zero
  refine ((triple_publishRoot (c := overlay changes c) { shape with index := newIndex top.1 placed }
    hC hutf hlimit hgeo hlevel).pre ?_).post ?_
  · rintro s ⟨K₂, hK₂, hstaged₂, hplaced, -⟩
    refine ⟨K₂, hK₁.trans hK₂, hstaged₂, fun i hi => ?_⟩
    obtain ⟨index, htop', hi⟩ := Option.map_eq_some_iff.mp hi
    rw [htop'] at htop
    rw [Nat.zero_add] at hplaced
    obtain ⟨r, l, hr, hl, hholds⟩ := hplaced index 0 htop
    rw [List.getD, hr, Option.getD_some, hl, Option.getD_some] at hi
    rw [← hi]
    exact hholds.reshape rfl rfl
  · rintro l s ⟨K₂, hK₂, hstaged₂, hpage, hindex⟩
    have hbeyond := overlay_beyond hgeo (fun b data h => (hblocks.block b data h).2) hbase.beyond
    refine ⟨K₂, _, hK₂, hstaged₂, ⟨hpage, hindex, fun hnone p => ?_, hbeyond⟩, rfl⟩
    rw [Option.map_eq_none_iff.mp hnone] at htop
    by_cases hp : shape.capacity ≤ p
    · exact hbeyond p hp
    · have hblk : p / blockSize < blockCount shape.capacity := by
        rw [Nat.div_lt_iff_lt_mul (by decide)]
        have := hgeo.capacity_eq
        omega
      exact htop (p / blockSize) (Nat.zero_le _) (hblk.trans_le hcover) p (Nat.div_mul_le_self _ _)
        (Nat.lt_mul_of_div_lt (Nat.lt_succ_self _) (by decide))

/-! ## Calls -/

theorem Writer.validate_packLimit {σ : Type} {w : Writer σ} {u : Unit} (h : w.validate = .ok u) :
    w.packLimit ≤ maxPackLimit := by
  unfold Writer.validate at h
  rw [reject_eq_ok] at h
  push Not at h
  exact h.2.2.2.2.2.2

theorem selected_keys
    (h : ∀ e ∈ changes.entries, e.1 < blockCount shape.capacity ∧ e.2.length = blockSize) :
    Selected shape changes (changes.keys.insertionSort (· ≤ ·)) where
  nodup := (List.perm_insertionSort _ _).nodup_iff.mpr changes.keys_nodup
  mem b := by
    rw [(List.perm_insertionSort (· ≤ ·) changes.keys).mem_iff, AList.lookup_isSome]
    rfl
  block b data hdata := by
    have := h ⟨b, data⟩ (AList.mem_lookup_iff.mp hdata)
    exact ⟨this.2, this.1⟩

theorem overlay_of_no_changes (h : changes.entries.length = 0) : overlay changes c = c := by
  have hnil : changes = ∅ := AList.ext (List.length_eq_zero_iff.mp h)
  rw [hnil]
  funext p
  simp only [overlay, AList.lookup_empty]

/-- What `Capture` has checked before it stages anything. -/
theorem triple_admitChanges (hC : C.Lawful) (hbase : K.Version C base shape c) {capacity : Int} :
    Triple (fresh rand) (Staged C cfg.scope cfg.keys K)
      ((stagingWriter rand cfg).admitChanges C base capacity changes)
      (fun root s => Staged C cfg.scope cfg.keys K s ∧ root = shape ∧ cfg.packLimit ≤ maxPackLimit
        ∧ ∀ e ∈ changes.entries, e.1 < blockCount shape.capacity ∧ e.2.length = blockSize)
      (Staged C cfg.scope cfg.keys K) := by
  unfold Writer.admitChanges
  refine Triple.attempt_bind (fun _ h => h) fun _ hvalidate => ?_
  refine Triple.attempt_bind (fun _ h => h) fun _ _ => ?_
  refine Triple.of_pre fun s₀ hfresh hstaged => ?_
  refine Triple.reads_bind hstaged fun root hroot => ?_
  have hread := hbase.page.readRoot_eq (hstaged.readable hC hfresh.1)
  rw [← hstaged.objects] at hread
  cases hread.symm.trans hroot
  refine Triple.attempt_bind (fun s hs => hs ▸ hstaged) fun _ _ => ?_
  refine Triple.attempt_bind (fun s hs => hs ▸ hstaged) fun _ hchanges => Triple.pure ?_
  rw [reject_eq_ok] at hchanges
  push Not at hchanges
  rintro s - rfl
  exact ⟨hstaged, rfl, Writer.validate_packLimit hvalidate, hchanges⟩

/-- **A captured version has the base's content with the changed blocks replaced**, and capturing
nothing returns the base. -/
theorem triple_capture (rand : Nat → Digest) (cfg : WriterConfig) (hC : C.Lawful)
    (hutf : Utf8 cfg.activeKey) (hbase : K.Version C base shape c) (capacity : Int) (changes : Changes) :
    Triple (fresh rand) (Staged C cfg.scope cfg.keys K)
      ((stagingWriter rand cfg).capture C base capacity changes)
      (Publishes C cfg K shape.capacity (overlay changes c)) (Grown C cfg.scope cfg.keys K) := by
  unfold Writer.capture
  refine Triple.bind ((triple_admitChanges hC hbase).conseq (fun _ h => h) (fun _ _ h => h)
    fun _ h => h.grown) fun root => Triple.of_pre fun s₀ _ hs₀ => ?_
  obtain ⟨hstaged, rfl, hlimit, hchanges⟩ := hs₀
  refine Triple.ite (fun hnone => Triple.pure ?_) fun _ => ?_
  · rintro s - rfl
    rw [overlay_of_no_changes hnone]
    exact ⟨K, root, List.prefix_refl K, hstaged, hbase, rfl⟩
  · have hvalid := RootSound.valid (hbase.page.placed hC hstaged.sound).sound
    exact (triple_stageVersion hC hutf hlimit hbase hvalid (selected_keys hchanges)).pre
      (by rintro _ rfl; exact hstaged)

/-- **An empty version is all zero.** -/
theorem triple_empty (rand : Nat → Digest) (cfg : WriterConfig) (hC : C.Lawful)
    (hutf : Utf8 cfg.activeKey) (capacity fanout : Int) :
    Triple (fresh rand) (Staged C cfg.scope cfg.keys K)
      ((stagingWriter rand cfg).empty C capacity fanout)
      (Publishes C cfg K capacity fun _ => 0) (Grown C cfg.scope cfg.keys K) := by
  unfold Writer.empty
  refine Triple.attempt_bind (fun _ h => h.grown) fun _ hgeo => ?_
  rw [reject_eq_ok, not_not] at hgeo
  refine Triple.attempt_bind (fun _ h => h.grown) fun _ hvalidate => ?_
  refine Triple.of_pre fun s₀ _ hstaged => ?_
  refine ((triple_publishRoot (c := fun _ => 0)
    { capacity, fanout, level := treeLevel capacity fanout, index := none } hC hutf
    (Writer.validate_packLimit hvalidate) hgeo rfl).pre ?_).post ?_
  · rintro _ rfl
    exact ⟨K, List.prefix_refl K, hstaged, fun i hi => by cases hi⟩
  · rintro l s ⟨K', hK', hstaged', hpage, hindex⟩
    exact ⟨K', _, hK', hstaged', ⟨hpage, hindex, fun _ _ => rfl, fun _ _ => rfl⟩, rfl⟩

/-- A capture of nothing returns its base. -/
theorem capture_of_no_changes {s s' : Staging} {l : Locator} {capacity : Int}
    (hnone : changes.entries.length = 0)
    (h : Act.from ((stagingWriter rand cfg).capture C base capacity changes) s = (.ok l, s')) :
    l = base := by
  obtain ⟨shape, t, -, h⟩ := from_bind_ok h
  rw [if_pos hnone] at h
  cases h
  rfl

end Helmr.BlockFormat
