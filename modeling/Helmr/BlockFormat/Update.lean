import Helmr.BlockFormat.Rebuild

/-!
# Block format — the induction over the tree

The loop over the slots of an inner node and the induction over the levels.

* `slotReady_unchanged`: a slot without changes keeps its link, and the content below it is the old one;
* `updateSlot_spec`: one round of the loop, which descends where there are changes and drops or relinks the child;
* `inner_ready`: the node the loop leaves is ready for its links;
* `update_spec`: what every level guarantees (`Descends`) from the level below.
-/

namespace Helmr.BlockFormat

open Wire Wire.Json Fallible Hoare

variable {C : Crypto} {scope : Bytes} {keys : Keys} {K : Catalog} {shape : Root} {c : Content}

/-- What rebuilding a subtree at `level` guarantees. -/
def Descends (C : Crypto) (K : Catalog) (shape : Root) (c : Content) (changes : Changes) (level : Nat)
    (descend : Option Locator → Nat → List Nat → Levels → Result (Option Nat × Levels)) : Prop :=
  ∀ old start changed levels r levels', Fits shape level start → BaseHolds C K shape c level old start →
    ChangedIn changes start (start + stride shape.fanout ((level : Int) + 1)) changed →
    AllPlanned C K shape (overlay changes c) levels →
    descend old start changed levels = .ok (r, levels') →
    levels.Le levels' ∧ AllPlanned C K shape (overlay changes c) levels'
      ∧ Rebuilt C K shape (overlay changes c) levels' level start r

section Slots

variable {n : Node} {changes : Changes} {values : Values} {changed : List Nat} {level start : Nat}
  {levels : Levels} {acc acc' : Slots}

/-- A slot without changes keeps its content. -/
theorem slotReady_unchanged (hC : C.Lawful) (hK : K.Sound C scope keys)
    (hbase : BaseNode C K shape c (level + 1) start n) {k : Nat} (hk : k < shape.fanout.toNat)
    (hnone : ∀ blk, start + k * stride shape.fanout (level + 1 : Nat) ≤ blk →
      blk < start + k * stride shape.fanout (level + 1 : Nat) + stride shape.fanout (level + 1 : Nat) →
      changes.lookup blk = none)
    (hentry : acc.entries k = slotEntries n k) (hchild : acc.children.lookup (k : Int) = none) :
    SlotReady C K shape (overlay changes c) level start (stride shape.fanout (level + 1 : Nat)) acc k := by
  have hslot := hbase.slot hk
  have hcast : ((level : Int) + 1) = ((level + 1 : Nat) : Int) := by push_cast; rfl
  have hsame : ∀ p, (start + k * stride shape.fanout (level + 1 : Nat)) * blockSize ≤ p →
      p < (start + k * stride shape.fanout (level + 1 : Nat) + stride shape.fanout (level + 1 : Nat))
        * blockSize → c p = overlay changes c p := by
    intro p hlo hhi
    refine (overlay_of_none (hnone (p / blockSize) ?_ ?_) (Nat.div_mul_le_self _ _) ?_).symm
    · exact (Nat.le_div_iff_mul_le (by decide)).mpr hlo
    · exact (Nat.div_lt_iff_lt_mul (by decide)).mpr hhi
    · exact Nat.lt_mul_of_div_lt (Nat.lt_succ_self _) (by decide)
  unfold SlotReady
  rw [hentry]
  cases he : slotEntries n k with
  | none =>
    rw [he] at hslot
    intro blk hlo hhi
    refine (hslot blk hlo (by rw [hcast]; exact hhi)).congr fun p hplo hphi => hsame p ?_ ?_
    · exact (Nat.mul_le_mul_right _ hlo).trans hplo
    · exact hphi.trans_le (Nat.mul_le_mul_right _ hhi)
  | some e =>
    -- an entry of the base found at slot `k` is the base's entry for it
    have hmem : e ∈ n.entries ∧ e.slot = (k : Nat) := by
      by_contra hno
      by_cases hex : ∃ x ∈ n.entries, x.slot = (k : Nat)
      · obtain ⟨x, hx, hxk⟩ := hex
        rw [← hxk, slotEntries_of_mem hbase.sorted hx] at he
        cases he
        exact hno ⟨hx, hxk⟩
      · push Not at hex
        rw [slotEntries_of_notMem hex] at he
        cases he
    obtain ⟨hin, hek⟩ := hmem
    obtain ⟨hseg, hrec⟩ := (hbase.inner (Nat.succ_pos level)).2 e hin
    have hbound := hbase.bound e hin
    have hinner : InnerHolds (K.Holds C shape c level) shape c (level + 1) start n := hbase.spelled
    obtain ⟨l, hl, hbelow⟩ := hinner.child e hin
    rw [hek, Int.toNat_natCast] at hbound hbelow
    refine ⟨hek, hseg, hrec, hbound, ?_⟩
    rw [hchild]
    refine ⟨l, hl, hbelow.congr hC hK fun p hlo hhi => hsame p hlo ?_⟩
    rwa [hcast] at hhi

/-- **One slot of the loop.** -/
theorem updateSlot_spec (hC : C.Lawful) (hK : K.Sound C scope keys) (hvalid : validateRoot shape = .ok ())
    (hfits : Fits shape (level + 1) start) (hbase : BaseNode C K shape c (level + 1) start n)
    (hstaged : ChangesStaged K shape changes values)
    (hchanged : ChangedIn changes start (start + stride shape.fanout ((level + 1 : Nat) + 1)) changed)
    {descend : Option Locator → Nat → List Nat → Levels → Result (Option Nat × Levels)}
    (hdescend : Descends C K shape c changes level descend) {k : Nat} (hk : k < shape.fanout.toNat)
    (hloop : SlotLoop C K shape (overlay changes c) n level start (stride shape.fanout (level + 1 : Nat)) k
      levels acc)
    (h : updateSlot descend start (stride shape.fanout (level + 1 : Nat)) changed acc k = .ok acc') :
    SlotLoop C K shape (overlay changes c) n level start (stride shape.fanout (level + 1 : Nat)) (k + 1)
      levels acc' := by
  have hgroup := hchanged.group hvalid hk
  have hbelow := hbase.slot hk
  have hcast : ((level : Int) + 1) = ((level + 1 : Nat) : Int) := by push_cast; rfl
  simp only [updateSlot] at h
  split at h
  -- nothing changed below the slot
  · rename_i hempty
    cases h
    refine ⟨fun slot hslot => ?_, fun slot hslot => hloop.entries slot (by omega),
      fun slot hslot => hloop.children slot (by omega), hloop.le, hloop.planned⟩
    rcases Nat.lt_succ_iff_lt_or_eq.mp hslot with hlt | rfl
    · exact hloop.ready slot hlt
    · refine slotReady_unchanged hC hK hbase hk (fun blk hlo hhi => ?_)
        (hloop.entries slot (le_refl _)) (hloop.children slot (le_refl _))
      rw [← Option.not_isSome_iff_eq_none, ← hgroup.mem blk hlo hhi, hempty]
      simp
  · rename_i hsome
    rw [bind_eq_ok] at h
    obtain ⟨⟨r, after⟩, hrun, heq⟩ := h
    rw [hloop.entries k (le_refl _)] at hrun
    -- the slot has a changed block, so it begins inside the disk
    have hchild : Fits shape level (start + k * stride shape.fanout (level + 1 : Nat)) := by
      refine ⟨by have := hfits.level_le; push_cast at this; omega, ?_, ?_⟩
      · obtain ⟨b, hb⟩ := List.exists_mem_of_ne_nil _ hsome
        obtain ⟨hlo, hhi⟩ := hgroup.range b hb
        obtain ⟨data, hdata⟩ := Option.isSome_iff_exists.mp ((hgroup.mem b hlo hhi).mp hb)
        exact hlo.trans_lt (hstaged.block b data hdata).2
      · have hal := hfits.aligned
        rw [stride_succ] at hal
        rw [hcast, Nat.add_mul_mod_self_right]
        exact Nat.mod_eq_zero_of_dvd ((Nat.dvd_mul_right _ _).trans (Nat.dvd_of_mod_eq_zero hal))
    obtain ⟨hle, hall, hrebuilt⟩ := hdescend _ _ _ _ _ _ hchild hbelow (by rw [hcast]; exact hgroup)
      hloop.planned hrun
    have hother : ∀ slot : Nat, slot ≠ k → ((slot : Nat) : Int) ≠ (k : Nat) := fun slot hne h => by omega
    cases r with
    | none =>
      cases heq
      refine ⟨fun slot hslot => ?_, fun slot hslot => ?_, fun slot hslot =>
        hloop.children slot (by omega), hloop.le.trans hle, hall⟩
      · rcases Nat.lt_succ_iff_lt_or_eq.mp hslot with hlt | rfl
        · exact (hloop.ready slot hlt).of_eq (Function.update_of_ne (hother slot (by omega)) _ _) rfl hle
        · unfold SlotReady
          simp only [Function.update_self]
          intro blk hlo hhi
          exact hrebuilt blk hlo (by rw [hcast]; exact hhi)
      · simp only [Function.update_of_ne (hother slot (by omega))]
        exact hloop.entries slot (by omega)
    | some index =>
      cases heq
      -- the child is planned, and its index is kept beside the entry until it is placed
      have hlookup : ∀ slot : Nat, slot ≠ k →
          List.lookup ((slot : Nat) : Int) (((k : Nat), index) :: acc.children)
            = acc.children.lookup ((slot : Nat) : Int) := by
        intro slot hne
        rw [List.lookup_cons, beq_eq_false_iff_ne.mpr (hother slot hne)]
      refine ⟨fun slot hslot => ?_, fun slot hslot => ?_, fun slot hslot => ?_,
        hloop.le.trans hle, hall⟩
      · rcases Nat.lt_succ_iff_lt_or_eq.mp hslot with hlt | rfl
        · exact (hloop.ready slot hlt).of_eq (Function.update_of_ne (hother slot (by omega)) _ _)
            (hlookup slot (by omega)) hle
        · unfold SlotReady
          simp only [Function.update_self, List.lookup_cons_self]
          exact ⟨trivial, trivial, trivial, hchild.start_lt, hrebuilt⟩
      · simp only [Function.update_of_ne (hother slot (by omega))]
        exact hloop.entries slot (by omega)
      · rw [hlookup slot (by omega)]
        exact hloop.children slot (by omega)

theorem Slots.mem_list {fanout : Nat} {e : Entry} :
    e ∈ acc.list fanout ↔ ∃ slot < fanout, acc.entries (slot : Nat) = some e := by
  simp [Slots.list, List.mem_filterMap]

/-- **The inner node the loop leaves** is ready for its links. -/
theorem inner_ready (hvalid : validateRoot shape = .ok ()) (hfits : Fits shape (level + 1) start)
    (hbase : BaseNode C K shape c (level + 1) start n) {c' : Content}
    (hloop : SlotLoop C K shape c' n level start (stride shape.fanout (level + 1 : Nat))
      shape.fanout.toNat levels acc) :
    InnerReady C K shape c' (Planned C K shape c' acc.levels level) level start
      { node := { n with entries := acc.list shape.fanout.toNat }, children := acc.children } := by
  have hfan : (shape.fanout.toNat : Int) = shape.fanout := by
    rcases (validateRoot_eq_ok.mp hvalid).1.fanout_cases with h | h <;> rw [h] <;> rfl
  have hpos := (validateRoot_eq_ok.mp hvalid).1.stride_pos (level + 1 : Nat)
  have hslot (e : Entry) (he : e ∈ acc.list shape.fanout.toNat) :
      ∃ slot < shape.fanout.toNat, acc.entries (slot : Nat) = some e := Slots.mem_list.mp he
  refine ⟨hfits, ⟨hbase.at_position.capacity, hbase.at_position.fanout, hbase.at_position.level_eq,
    hbase.at_position.start_eq⟩, (hbase.inner (Nat.succ_pos level)).1, ?_, ?_, fun e he => ?_,
    fun e he => ?_, fun e he => ?_, fun blk hlo hhi hno => ?_⟩
  · exact (List.length_filterMap_le _ _).trans (by simp)
  · refine List.pairwise_filterMap.mpr ?_
    refine (List.pairwise_lt_range).imp_of_mem fun {a b} ha hb hlt e he f hf => ?_
    rw [((hloop.ready a (List.mem_range.mp ha)).entry he).1, ((hloop.ready b (List.mem_range.mp hb)).entry hf).1]
    exact_mod_cast hlt
  · obtain ⟨slot, hlt, hsome⟩ := hslot e he
    obtain ⟨heq, -, -, hbound, -⟩ := (hloop.ready slot hlt).entry hsome
    rw [heq, Int.toNat_natCast]
    exact ⟨by omega, by omega, hbound⟩
  · obtain ⟨slot, hlt, hsome⟩ := hslot e he
    obtain ⟨-, hsegment, hrecord, -⟩ := (hloop.ready slot hlt).entry hsome
    exact ⟨hsegment, hrecord⟩
  · obtain ⟨slot, hlt, hsome⟩ := hslot e he
    obtain ⟨heq, -, -, -, hlink⟩ := (hloop.ready slot hlt).entry hsome
    simp only [heq, Int.toNat_natCast]
    exact hlink
  · -- a block of the node's range lies under the slot of its quotient
    rw [stride_succ, Nat.mul_comm] at hhi
    generalize stride shape.fanout (level + 1 : Nat) = span at hpos hhi hno hloop
    have hslot : (blk - start) / span < shape.fanout.toNat :=
      (Nat.div_lt_iff_lt_mul hpos).mpr (by omega)
    have hdiv : (blk - start) / span * span ≤ blk - start := Nat.div_mul_le_self _ _
    have hrem : blk - start < (blk - start) / span * span + span := Nat.lt_div_mul_add hpos
    cases hsome : acc.entries ((blk - start) / span : Nat) with
    | none =>
      have hready := hloop.ready _ hslot
      unfold SlotReady at hready
      rw [hsome] at hready
      exact hready blk (by omega) (by omega)
    | some e =>
      refine absurd ?_ (hno e (Slots.mem_list.mpr ⟨_, hslot, hsome⟩))
      rw [((hloop.ready _ hslot).entry hsome).1, Int.toNat_natCast]
      omega

end Slots

/-- **Rebuilding the changed paths.** A subtree comes out planned with the changed content, or it
is dropped and all of its blocks are holes. Induction on the level. -/
theorem update_spec (hK : K.Readable C scope keys)
    (hvalid : validateRoot shape = .ok ()) {changes : Changes} {values : Values}
    (hstaged : ChangesStaged K shape changes values) (level : Nat) :
    Descends C K shape c changes level
      (update C (K.store C).source scope keys shape values level) := by
  induction level with
  | zero =>
    intro old start changed levels r levels' hfits hbase hchanged hall h
    rw [update, bind_eq_ok] at h
    obtain ⟨n, hn, heq⟩ := h
    have hnode := baseNode_spec hK hvalid hbase hn
    obtain ⟨hleaf, hready⟩ := update_leaf hK.sound hvalid hfits hnode hstaged hchanged
    have hkeep := keepNode_spec 0 start { node := _, children := [] } hall (fun hempty blk hlo hhi => ?_)
      fun hne levels' _ hd => ⟨_, hd, rfl, hready hne⟩
    · rw [Except.ok.inj heq] at hkeep
      exact hkeep
    · exact hleaf.sparse blk hlo hhi (by rw [hempty]; simp)
  | succ level ih =>
    intro old start changed levels r levels' hfits hbase hchanged hall h
    rw [update, bind_eq_ok] at h
    obtain ⟨n, hn, h⟩ := h
    rw [bind_eq_ok] at h
    obtain ⟨slots, hslots, heq⟩ := h
    have hnode := baseNode_spec hK hvalid hbase hn
    -- the invariant of the loop over the slots, each of which is an update one level down
    have hloop := foldlM_range
      (SlotLoop C K shape (overlay changes c) n level start (stride shape.fanout (level + 1 : Nat)) · levels)
      ⟨fun slot hslot => absurd hslot (Nat.not_lt_zero slot), fun _ _ => rfl, fun _ _ => rfl,
        Levels.Le.refl _, hall⟩
      (fun k hk acc acc' hacc hrun =>
        updateSlot_spec hK.lawful hK.sound hvalid hfits hnode hstaged hchanged ih hk hacc hrun) hslots
    have hready := inner_ready hvalid hfits hnode hloop
    have hkeep := keepNode_spec (level + 1) start { node := _, children := slots.children } hloop.planned
      (fun hempty blk hlo hhi => ?_) fun hne levels' hle hd => ⟨_, hd, hne, hready.imp fun _ _ hp => hp.mono hle⟩
    · rw [show keepNode (level + 1) _ slots.levels = (r, levels') from Except.ok.inj heq] at hkeep
      exact ⟨hloop.le.trans hkeep.1, hkeep.2⟩
    · exact hready.sparse blk hlo hhi (by rw [hempty]; simp)

end Helmr.BlockFormat
