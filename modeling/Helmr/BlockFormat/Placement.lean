import Helmr.BlockFormat.StageData

/-!
# Block format — placing the planned nodes

Levels are placed from the leaves up. Before a level is placed every planned node of the level below
has a place with the planned content (`PlacedLevel`), so the links of its nodes resolve
(`resolveEntry_child`) and each node is ready to be published (`resolve_ready`). Inside a level sealed
pages wait in a batch; `BatchInv` says that each node already handled has its page in the catalog or in
the batch. `BatchInv.push` and `BatchInv.flush` are its two steps, `triple_placeNode` takes one of them or
both, `triple_placeLevel` is the loop over a level and `triple_placeLevels` the one over the levels.
-/

namespace Helmr.BlockFormat

open Wire Wire.Json Fallible Hoare

/-! ## Levels in the making -/

section Definitions

variable (C : Crypto) (rand : Nat → Digest) (cfg : WriterConfig) (K₁ K : Catalog) (shape : Root) (c : Content)
  (levels : Levels)

/-- Every planned node of a level has a place. `K₁` is the catalog the plan was made for. -/
def PlacedLevel (converted : Converted) (refs : List Ref) (level : Nat) : Prop :=
  ∀ index start, Planned C K₁ shape c levels level index start →
    ∃ r l, refs[index]? = some r ∧ converted r = some l ∧ K.Holds C shape c level l start

/-- The level below is placed; below the leaves there is nothing to place. -/
def BelowPlaced (converted : Converted) (refs : List Ref) : (level : Nat) → Prop
  | 0 => True
  | level + 1 => PlacedLevel C K₁ K shape c levels converted refs level

/-- A level in the making: `done` of its nodes are handled, and the pages `waiting` are not yet
published. `n` salts are drawn. -/
structure BatchInv (level : Nat) (below : List Ref) (done : Nat) (converted : Converted)
    (waiting : List CatalogPage) (refs : List Ref) (n : Nat) : Prop where
  below : BelowPlaced C K₁ K shape c levels converted below level
  sound : ∀ p ∈ waiting, p.Sound C cfg.scope cfg.keys K ((level : Int) + 1)
  nodup : (waiting.map fun p => p.ref).Nodup
  drawn : ∀ p ∈ waiting, Drawn rand n p.ref
  placed : ∀ r l, converted r = some l → Drawn rand n r
  unplaced : ∀ p ∈ waiting, converted p.ref = none
  count : refs.length = done
  node : ∀ j < done, ∀ start, Planned C K₁ shape c levels level j start →
    ∃ r body, refs[j]? = some r ∧ NodeReady C K shape c level start body
      ∧ ((∃ l, converted r = some l ∧ K.PageAt C l (.node body))
        ∨ ∃ p ∈ waiting, p.ref = r ∧ p.body = .node body)

/-- The state of the level loop. -/
def BatchAt (level : Nat) (below : List Ref) (done : Nat) (b : Batch) (s : Staging) : Prop :=
  ∃ (K : Catalog) (waiting : List CatalogPage), K₁ <+: K ∧ Staged C cfg.scope cfg.keys K s
    ∧ b.pages = waiting.map CatalogPage.toStagedPage
    ∧ BatchInv C rand cfg K₁ K shape c levels level below done b.converted waiting b.refs s.drawn

/-- Between two levels: the references are those of the last level placed. -/
def LevelAt (level : Nat) (refs : List Ref) (converted : Converted) (s : Staging) : Prop :=
  ∃ K : Catalog, K₁ <+: K ∧ Staged C cfg.scope cfg.keys K s
    ∧ BelowPlaced C K₁ K shape c levels converted refs level
    ∧ ∀ r l, converted r = some l → Drawn rand s.drawn r

end Definitions

variable {C : Crypto} {scope : Bytes} {keys : Keys} {K₁ K K' : Catalog} {shape : Root} {c : Content}
  {levels : Levels}

/-! ## Resolving links -/

variable {d : DirectNode} {below : List Ref} {converted : Converted} {level start : Nat}

theorem resolveEntry_keeps {e e' : Entry} (h : resolveEntry d below converted e = .ok e') :
    e'.slot = e.slot ∧ e'.segment = e.segment ∧ e'.record = e.record := by
  unfold resolveEntry at h
  split at h
  · cases h
    exact ⟨rfl, rfl, rfl⟩
  · rw [bind_eq_ok] at h
    obtain ⟨loc, -, heq⟩ := h
    cases heq
    exact ⟨rfl, rfl, rfl⟩

/-- A resolved link leads to a subtree with the planned content. -/
theorem resolveEntry_child (hsub : K₁ ⊆ K)
    (hready : InnerReady C K₁ shape c (Planned C K₁ shape c levels level) level start d)
    (hbelow : PlacedLevel C K₁ K shape c levels converted below level) {e e' : Entry} (he : e ∈ d.node.entries)
    (h : resolveEntry d below converted e = .ok e') :
    ∃ l, e'.child = some l
      ∧ K.Holds C shape c level l (start + e.slot.toNat * stride shape.fanout (level + 1 : Nat)) := by
  have hchild := hready.child e he
  unfold resolveEntry at h
  split at h
  · rename_i hnone
    rw [hnone] at hchild
    cases h
    obtain ⟨l, hl, hholds⟩ := hchild
    exact ⟨l, hl, hholds.mono hsub⟩
  · rename_i index hsome
    rw [hsome] at hchild
    obtain ⟨r, l, hr, hl, hholds⟩ := hbelow index _ hchild
    rw [List.getD, hr, Option.getD_some, hl] at h
    cases h
    exact ⟨l, rfl, hholds⟩

theorem Sparse.of_slots {span stop : Nat} {es es' : List Entry} (h : Sparse c start span stop es)
    (hslots : es'.map Entry.slot = es.map Entry.slot) : Sparse c start span stop es' := by
  intro blk hlo hhi hno
  refine h blk hlo hhi fun e he => ?_
  obtain ⟨e', he', heq⟩ := List.mem_map.mp (hslots ▸ List.mem_map_of_mem he)
  rw [← heq]
  exact hno e' he'

/-- The node of a place in a sound catalog: its kind and rank as a link needs them. -/
theorem Catalog.Holds.link (hC : C.Lawful) (hK : K.Sound C scope keys) {l : Locator}
    (h : K.Holds C shape c level l start) :
    l.page.kind = nodeKind ∧ l.pack.rank = (level : Int) + 1 ∧ l.Portable := by
  obtain ⟨n, hpage, hat, -⟩ := Catalog.holds_iff.mp h
  have hplaced := hpage.placed hC hK
  refine ⟨hplaced.kind, ?_, hplaced.portable⟩
  rw [NodeSound.rank_eq hplaced.sound, hat.level_eq]

/-- **A planned node is ready to be published** once its links are resolved. -/
theorem resolve_ready (hC : C.Lawful) (hK : K.Sound C scope keys) (hvalid : validateRoot shape = .ok ())
    (hsub : K₁ ⊆ K) {index : Nat} (hd : (levels level)[index]? = some d)
    (hplan : Planned C K₁ shape c levels level index start)
    (hbelow : BelowPlaced C K₁ K shape c levels converted below level) {entries : List Entry}
    (hmap : d.node.entries.mapM (resolveEntry d below converted) = .ok entries) :
    NodeReady C K shape c level start { d.node with entries } := by
  cases level with
  | zero =>
    obtain ⟨d', hd', hchildren, hready⟩ := hplan
    cases hd.symm.trans hd'
    have hsame : entries.map id = d.node.entries.map id := by
      refine map_of_mapM (fun e e' h => ?_) hmap
      unfold resolveEntry at h
      rw [hchildren] at h
      cases h
      rfl
    rw [List.map_id, List.map_id] at hsame
    rw [hsame]
    exact hready.mono hsub
  | succ level =>
    obtain ⟨d', hd', hne, hready⟩ := hplan
    cases hd.symm.trans hd'
    have hslots : entries.map Entry.slot = d.node.entries.map Entry.slot :=
      map_of_mapM (fun _ _ h => (resolveEntry_keeps h).1) hmap
    have hlength : entries.length = d.node.entries.length := by
      simpa using congrArg List.length hslots
    -- what each resolved entry is
    have hentry : ∀ e ∈ entries, 0 ≤ e.slot ∧ e.slot < shape.fanout
        ∧ start + e.slot.toNat * stride shape.fanout (level + 1 : Nat) < blockCount shape.capacity
        ∧ e.segment = 0 ∧ e.record = 0 ∧ ∃ l, e.child = some l
          ∧ K.Holds C shape c level l (start + e.slot.toNat * stride shape.fanout (level + 1 : Nat)) := by
      intro e' he'
      obtain ⟨e, he, hres⟩ := mem_of_mapM hmap e' he'
      obtain ⟨hslot, hseg, hrec⟩ := resolveEntry_keeps hres
      obtain ⟨h0, hlt, hblk⟩ := hready.slot e he
      obtain ⟨hs0, hr0⟩ := hready.plain e he
      obtain ⟨l, hl, hholds⟩ := resolveEntry_child hsub hready hbelow he hres
      rw [hslot, hseg, hrec]
      exact ⟨h0, hlt, hblk, hs0, hr0, l, hl, hholds⟩
    generalize hn : ({ d.node with entries } : Node) = n
    have hnentries : n.entries = entries := by rw [← hn]
    have hnsegments : n.segments = [] := by rw [← hn]; exact hready.segments
    have hat : n.At shape (level + 1) start := by
      rw [← hn]
      exact ⟨hready.at_position.capacity, hready.at_position.fanout, hready.at_position.level_eq,
        hready.at_position.start_eq⟩
    obtain ⟨hshape, hl0, hle, hlt, hal, hcapr, hfanr, hlevr, hstr⟩ := hat.geometry hvalid hready.fits
    have hfan : n.shape.fanout = shape.fanout := hat.fanout
    have hcap : n.shape.capacity = shape.capacity := hat.capacity
    have hfan256 : 0 ≤ shape.fanout ∧ shape.fanout ≤ 256 := by
      rcases (validateRoot_eq_ok.mp hvalid).1.fanout_cases with h | h <;> rw [h] <;> decide
    have hmin : intMin ≤ 0 := by decide
    have hmax : (256 : Int) ≤ intMax := by decide
    have hle' := hready.entries_le
    have hsorted : entries.Pairwise fun a b => a.slot < b.slot := by
      have := List.pairwise_map.mpr hready.sorted
      rw [← hslots] at this
      exact List.pairwise_map.mp this
    refine ⟨⟨hshape, hl0, hle, hlt, hal, by rw [hat.level_eq], ?_, ?_, by simp [hnsegments], ?_⟩, hat, ?_, ?_⟩
    · refine ⟨rfl, rfl, rfl, rfl, by rw [hnentries, hfan]; omega, by rw [hnsegments, hfan]; simp; omega,
        by rw [hnentries]; exact hsorted, fun e he => ?_, fun e he => ?_, fun _ => hnsegments, ?_⟩
      · rw [hnentries] at he
        exact (hentry e he).1
      · rw [hnentries] at he
        obtain ⟨-, hslt, hblk, hs0, hr0, l, hl, hholds⟩ := hentry e he
        obtain ⟨hkind, hrank, -⟩ := hholds.link hC hK
        refine ⟨by rw [hfan]; exact hslt, by rw [hcap, hfan, hat.start_eq, hat.level_eq]; exact hblk, ?_⟩
        rw [if_pos (by rw [hat.level_eq]; omega)]
        exact ⟨⟨l, hl, hkind, by rw [hrank, hat.level_eq]; push_cast; rfl⟩, hs0, hr0⟩
      · refine ⟨?_, ?_⟩ <;> simp [hnsegments]
    · refine ⟨hcapr, hfanr, hlevr, hstr, by simp [hnsegments], fun e he => ?_⟩
      rw [hnentries] at he
      obtain ⟨h0, hslt, -, hs0, hr0, l, hl, hholds⟩ := hentry e he
      refine ⟨⟨by omega, by omega⟩, ?_, ⟨by omega, by omega⟩, by omega⟩
      simp only [hl, Option.mem_some_iff, forall_eq']
      exact (hholds.link hC hK).2.2
    · intro link hlink
      obtain ⟨e, he, hsome⟩ := List.mem_filterMap.mp hlink
      rw [hnentries] at he
      obtain ⟨-, -, -, -, -, l, hl, hholds⟩ := hentry e he
      rw [hl, Option.map_some, Option.some.injEq] at hsome
      obtain ⟨m, hpage, hmcap, hmfan, hmlevel, hmstart⟩ := hholds.nodeAt
      rw [← hsome]
      refine ⟨m, hpage, hmcap.trans hcap.symm, hmfan.trans hfan.symm, ?_, ?_⟩
      · rw [hmlevel, hat.level_eq]
        push_cast
        ring
      · rw [hmstart, hat.start_eq, hat.level_eq, hfan]
    · rw [hnentries, ← List.length_pos_iff, hlength, List.length_pos_iff]
      exact hne
    · refine ⟨by rw [hnentries]; exact hready.sparse.of_slots hslots, fun e he => ?_⟩
      rw [hnentries] at he
      obtain ⟨-, -, -, -, -, l, hl, hholds⟩ := hentry e he
      exact ⟨l, hl, hholds⟩

/-! ## Batches -/

variable {rand : Nat → Digest} {cfg : WriterConfig}

section Batch

variable {level : Nat} {below : List Ref} {done : Nat} {converted converted' : Converted}
  {waiting : List CatalogPage} {refs : List Ref} {n : Nat}

/-- Publishing the batch places what was waiting and moves nothing else. -/
theorem BatchInv.flush
    (h : BatchInv C rand cfg K₁ K shape c levels level below done converted waiting refs n)
    (hsub : K ⊆ K')
    (hplaced : ∀ p ∈ waiting, ∃ l, converted' p.ref = some l ∧ K'.PageAt C l p.body)
    (hother : ∀ r, r ∉ waiting.map (fun p => p.ref) → converted' r = converted r) :
    BatchInv C rand cfg K₁ K' shape c levels level below done converted' [] refs n := by
  -- a reference with a place is not waiting, so it keeps it
  have hkeep : ∀ {r l}, converted r = some l → converted' r = some l := by
    intro r l hl
    rw [hother r fun hr => ?_, hl]
    obtain ⟨p, hp, rfl⟩ := List.mem_map.mp hr
    rw [h.unplaced p hp] at hl
    cases hl
  refine ⟨?_, by simp, by simp, by simp, fun r l hl => ?_, by simp, h.count, fun j hj start hplan => ?_⟩
  · cases level with
    | zero => exact trivial
    | succ level =>
      intro index start hplan
      obtain ⟨r, l, hr, hl, hholds⟩ := h.below index start hplan
      exact ⟨r, l, hr, hkeep hl, hholds.mono hsub⟩
  · by_cases hr : r ∈ waiting.map fun p => p.ref
    · obtain ⟨p, hp, rfl⟩ := List.mem_map.mp hr
      exact h.drawn p hp
    · exact h.placed r l (hother r hr ▸ hl)
  · obtain ⟨r, body, hr, hready, ⟨l, hl, hpage⟩ | ⟨p, hp, rfl, hbody⟩⟩ := h.node j hj start hplan
    · exact ⟨r, body, hr, hready.mono hsub, .inl ⟨l, hkeep hl, hpage.mono hsub⟩⟩
    · obtain ⟨l, hl, hpage⟩ := hplaced p hp
      exact ⟨p.ref, body, hr, hready.mono hsub, .inl ⟨l, hl, hbody ▸ hpage⟩⟩

/-- A new page joins the batch. Its salt is new, so its reference is. -/
theorem BatchInv.push
    (h : BatchInv C rand cfg K₁ K shape c levels level below done converted waiting refs n)
    {s : Staging} (hfresh : (fresh rand).holds s) (hn : n < s.drawn) {page : CatalogPage} {body : Node}
    (hsalt : page.ref.salt = rand n) (hbody : page.body = .node body)
    (hsound : page.Sound C cfg.scope cfg.keys K ((level : Int) + 1))
    (hready : ∀ start, Planned C K₁ shape c levels level done start → NodeReady C K shape c level start body) :
    BatchInv C rand cfg K₁ K shape c levels level below (done + 1) converted (waiting ++ [page])
      (refs ++ [page.ref]) (n + 1) := by
  have hle : n ≤ n + 1 := Nat.le_succ n
  -- a reference drawn before has another salt
  have hnew : ∀ {r}, Drawn rand n r → r ≠ page.ref := fun hr => hr.ne_new hfresh hn hsalt
  have hpage : ∀ {p}, p ∈ waiting ++ [page] → p ∈ waiting ∨ p = page := fun hp => by simpa using hp
  refine ⟨h.below, fun p hp => ?_, ?_, fun p hp => ?_, fun r l hl => (h.placed r l hl).mono hle,
    fun p hp => ?_, by simp [h.count], fun j hj start hplan => ?_⟩
  · rcases hpage hp with hp | rfl
    · exact h.sound p hp
    · exact hsound
  · rw [List.map_append, List.nodup_append]
    refine ⟨h.nodup, by simp, fun r hr r' hr' => ?_⟩
    obtain ⟨p, hp, rfl⟩ := List.mem_map.mp hr
    rw [show r' = page.ref by simpa using hr']
    exact hnew (h.drawn p hp)
  · rcases hpage hp with hp | rfl
    · exact (h.drawn p hp).mono hle
    · exact ⟨n, Nat.lt_succ_self n, hsalt⟩
  · rcases hpage hp with hp | rfl
    · exact h.unplaced p hp
    · by_contra hplaced
      obtain ⟨l, hl⟩ := Option.ne_none_iff_exists'.mp hplaced
      exact hnew (h.placed _ l hl) rfl
  · rcases Nat.lt_succ_iff_lt_or_eq.mp hj with hj | rfl
    · obtain ⟨r, b, hr, hb, hwhere⟩ := h.node j hj start hplan
      refine ⟨r, b, ?_, hb, hwhere.imp id ?_⟩
      · rw [List.getElem?_append_left (by rw [h.count]; exact hj), hr]
      · rintro ⟨p, hp, hrest⟩
        exact ⟨p, List.mem_append_left _ hp, hrest⟩
    · refine ⟨page.ref, body, ?_, hready start hplan, .inr ⟨page, by simp, rfl, hbody⟩⟩
      rw [List.getElem?_append_right (by rw [h.count]), h.count]
      simp

/-- With nothing left waiting the level is placed. -/
theorem BatchInv.placedLevel
    (h : BatchInv C rand cfg K₁ K shape c levels level below (levels level).length converted [] refs n) :
    PlacedLevel C K₁ K shape c levels converted refs level := by
  intro index start hplan
  obtain ⟨r, body, hr, hready, ⟨l, hl, hpage⟩ | ⟨p, hp, -⟩⟩ := h.node index hplan.lt start hplan
  · exact ⟨r, l, hr, hl, hready.holds hpage⟩
  · simp at hp

end Batch

/-! ## Levels -/

/-- A freshly sealed page, as the catalog will list it. -/
theorem sealedPage_sound (body : PageBody) (hutf : Utf8 cfg.activeKey) {n : Nat} {rank : Int} {ref : Ref}
    {b : Bytes} (hbody : body.Sound C K rank)
    (hseal : sealObject C cfg.scope (cfg.keys.get cfg.activeKey)
      (newRef rand cfg n body.kind [body.plain]) [body.plain] = .ok (ref, b)) :
    ({ ref, bytes := b, body } : CatalogPage).Sound C cfg.scope cfg.keys K rank ∧ ref.salt = rand n := by
  have hsealed := sealedPage_of_sealObject body.kind_ne_segment hseal
  obtain ⟨-, -, -, -, -, raw, -, -, href⟩ := sealObject_eq_ok.mp hseal
  have hkey : ref.key = cfg.activeKey := by rw [href]; rfl
  refine ⟨⟨?_, ?_, ?_, hbody⟩, by rw [href]; rfl⟩
  · rw [hkey]
    exact hsealed
  · rw [href]
    rfl
  · rw [hkey]
    exact hutf

section Level

variable {level : Nat} {below : List Ref} (hC : C.Lawful) (hvalid : validateRoot shape = .ok ())
  (hutf : Utf8 cfg.activeKey) (hlimit : cfg.packLimit ≤ maxPackLimit) (hall : AllPlanned C K₁ shape c levels)
include hC hvalid hutf hlimit hall

/-- One node of a level: its page joins the batch, which is published first if the page does not fit. -/
theorem triple_placeNode {done empty : Nat} {d : DirectNode}
    (hd : (levels level)[done]? = some d) {b : Batch} :
    Triple (fresh rand) (BatchAt C rand cfg K₁ shape c levels level below done b)
      ((stagingWriter rand cfg).placeNode C ((level : Int) + 1) empty below b d)
      (fun b' => BatchAt C rand cfg K₁ shape c levels level below (done + 1) b')
      (Grown C cfg.scope cfg.keys K₁) := by
  refine Triple.of_pre fun s₀ _ hs₀ => ?_
  obtain ⟨K, waiting, hK, hstaged, hpages, hinv⟩ := hs₀
  have hgrown : ∀ n : Nat, Grown C cfg.scope cfg.keys K₁ { s₀ with drawn := n } :=
    fun n => ⟨K, hK, hstaged.draw⟩
  unfold Writer.placeNode
  refine Triple.attempt_bind (fun s hs => hs ▸ hgrown s₀.drawn) fun entries hmap => ?_
  refine Triple.attempt_bind (fun s hs => hs ▸ hgrown s₀.drawn) fun plain hplain => ?_
  have hrendered : plain = renderNode { d.node with entries } := by
    unfold marshalNode at hplain
    split at hplain
    · exact (Except.ok.inj hplain).symm
    · cases hplain
  rw [hrendered]
  refine Triple.bind (Q := fun sealed s => s = { s₀ with drawn := s₀.drawn + 1 }
    ∧ ∃ page : CatalogPage, page.ref = sealed.1 ∧ page.bytes = sealed.2
      ∧ page.body = .node { d.node with entries } ∧ page.ref.salt = rand s₀.drawn
      ∧ page.Sound C cfg.scope cfg.keys K ((level : Int) + 1)
      ∧ ∀ start, Planned C K₁ shape c levels level done start →
        NodeReady C K shape c level start { d.node with entries })
    (triple_sealNew (fun s ref bytes hs _ hseal => ?_) fun s hs => ?_) fun sealed => ?_
  · cases hs
    have hready : ∀ start, Planned C K₁ shape c levels level done start →
        NodeReady C K shape c level start { d.node with entries } :=
      fun start hplan => resolve_ready hC hstaged.sound hvalid hK.subset hd hplan hinv.below hmap
    obtain ⟨start, hplan⟩ := hall level done (List.getElem?_eq_some_iff.mp hd).1
    obtain ⟨hsound, hsalt⟩ := sealedPage_sound (.node { d.node with entries }) hutf
      (hready start hplan).sound hseal
    exact ⟨rfl, _, rfl, rfl, rfl, hsalt, hsound, hready⟩
  · cases hs
    exact hgrown _
  refine Triple.of_pre fun s₁ _ hs₁ => ?_
  obtain ⟨rfl, page, href, hbytes, hbody, hsalt, hsound, hready⟩ := hs₁
  have hstaged₁ : Staged C cfg.scope cfg.keys K { s₀ with drawn := s₀.drawn + 1 } := hstaged.draw
  have hpage : ({ ref := sealed.1, bytes := sealed.2 } : StagedPage) = page.toStagedPage := by
    rw [← href, ← hbytes]
  rw [hpage, ← href]
  refine Triple.ite (fun _ => ?_) fun _ => Triple.pure ?_
  · -- the batch is published and the page starts the next one
    rw [hpages]
    refine Triple.bind (triple_publish hlimit hK hstaged₁ hinv.nodup hinv.sound) fun converted' => ?_
    refine Triple.bind (Triple.attempt (fun s _ _ hs => hs) ?_) fun _ => Triple.pure ?_
    · rintro s ⟨K', hK', hstaged', -⟩
      exact ⟨K', hK.trans hK', hstaged'⟩
    · rintro s hfresh ⟨K', hK', hstaged', hdrawn, hplaced, hother⟩
      have hflushed := hinv.flush hK'.subset hplaced hother
      have hpushed := hflushed.push hfresh (by rw [hdrawn]; exact Nat.lt_succ_self _) hsalt hbody (hsound.mono hK'.subset)
        fun start hplan => (hready start hplan).mono hK'.subset
      exact ⟨K', [page], hK.trans hK', hstaged', rfl, by rw [hdrawn]; exact hpushed⟩
  · rintro s hfresh rfl
    refine ⟨K, waiting ++ [page], hK, hstaged₁, by simp [hpages], ?_⟩
    exact hinv.push hfresh (Nat.lt_succ_self _) hsalt hbody hsound hready

/-- **A level is placed**, whatever batches its pages go in. -/
theorem triple_placeLevel {converted : Converted} :
    Triple (fresh rand) (LevelAt C rand cfg K₁ shape c levels level below converted)
      ((stagingWriter rand cfg).placeLevel C level (levels level) below converted)
      (fun placed => LevelAt C rand cfg K₁ shape c levels (level + 1) placed.1 placed.2)
      (Grown C cfg.scope cfg.keys K₁) := by
  have hcast : ((level + 1 : Nat) : Int) = (level : Int) + 1 := by push_cast; rfl
  unfold Writer.placeLevel
  simp only [hcast]
  refine Triple.bind (Triple.foldlM
    (fun done b => BatchAt C rand cfg K₁ shape c levels level below done.length b)
    (fun done d rest b heq => ?_) ?_) fun batch => Triple.of_pre fun s₁ _ hs₁ => ?_
  · have hd : (levels level)[done.length]? = some d := by rw [heq]; simp
    have hlength : (done ++ [d]).length = done.length + 1 := by simp
    rw [hlength]
    exact triple_placeNode hC hvalid hutf hlimit hall hd
  · rintro s ⟨K, hK, hstaged, hbelow, hdrawn⟩
    exact ⟨K, [], hK, hstaged, rfl, hbelow, by simp, by simp, by simp, hdrawn, by simp, rfl,
      fun j hj => absurd hj (Nat.not_lt_zero j)⟩
  · obtain ⟨K, waiting, hK, hstaged, hpages, hinv⟩ := hs₁
    rw [hpages]
    refine Triple.bind (triple_publish hlimit hK hstaged hinv.nodup hinv.sound) fun converted' =>
      Triple.pure ?_
    rintro s - ⟨K', hK', hstaged', hdrawn, hplaced, hother⟩
    have hflushed := hinv.flush hK'.subset hplaced hother
    refine ⟨K', hK.trans hK', hstaged', hflushed.placedLevel, ?_⟩
    rw [hdrawn]
    exact hflushed.placed

/-- **The levels are placed from the leaves up.** Induction on the number of levels still to come;
`bottom` of them are placed. -/
theorem triple_placeLevels (count bottom : Nat) :
    Triple (fresh rand) (LevelAt C rand cfg K₁ shape c levels bottom below converted)
      ((stagingWriter rand cfg).placeLevels C levels (List.range' bottom count) below converted)
      (fun placed => LevelAt C rand cfg K₁ shape c levels (bottom + count) placed.1 placed.2)
      (Grown C cfg.scope cfg.keys K₁) := by
  induction count generalizing bottom below converted with
  | zero =>
    rw [List.range'_zero, Writer.placeLevels]
    exact Triple.pure fun s _ hs => hs
  | succ count ih =>
    rw [List.range'_succ, Writer.placeLevels]
    refine Triple.bind (triple_placeLevel hC hvalid hutf hlimit hall) fun placed => ?_
    rw [show bottom + (count + 1) = bottom + 1 + count by omega]
    exact ih (bottom + 1)

end Level

end Helmr.BlockFormat
