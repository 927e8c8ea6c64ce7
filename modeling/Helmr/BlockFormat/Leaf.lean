import Helmr.BlockFormat.Contents
import Helmr.Lib.Assign

/-!
# Block format — rebuilding a leaf

A leaf is rebuilt from the locations of its blocks by slot. `leafTable_spec` says what its table
loop produces: one entry for each located slot in order, and a table in which every segment appears
once and is used. A leaf with that table has the content the locations describe (`Table.leafHolds`),
and `leaf_ready` concludes that it is a sound page body if it has any entry.
-/

namespace Helmr.BlockFormat

open Wire Wire.Json Fallible Hoare

variable {C : Crypto} {scope : Bytes} {keys : Keys} {K K' : Catalog} {shape : Root} {c : Content}

/-! ## The table loop -/

/-- The table of the slots below `k`. -/
structure Table (locs : Int → Option BlockLocation) (k : Nat) (table : List Ref × List Entry) : Prop where
  sorted : table.2.Pairwise fun a b => a.slot < b.slot
  entry : ∀ e ∈ table.2, ∃ i < k, e.slot = (i : Nat) ∧ e.child = none ∧ 0 ≤ e.segment
    ∧ ∃ v, locs i = some v ∧ e.record = v.record ∧ table.1[e.segment.toNat]? = some v.segment
  complete : ∀ i < k, ∀ v, locs (i : Nat) = some v → ∃ e ∈ table.2, e.slot = (i : Nat)
  nodup : table.1.Nodup
  used : ∀ j < table.1.length, ∃ e ∈ table.2, e.segment = (j : Nat)
  segments_le : table.1.length ≤ table.2.length
  entries_le : table.2.length ≤ k

/-- **One slot of the table loop.** A slot without a location adds nothing; another one adds an entry, and its
segment where it is not in the table yet. -/
theorem leafSlot_spec {locs : Int → Option BlockLocation} {k : Nat} {table : List Ref × List Entry}
    (h : Table locs k table) : Table locs (k + 1) (leafSlot locs table k) := by
  unfold leafSlot
  split
  · rename_i hnone
    refine ⟨h.sorted, fun e he => ?_, fun i hi v hv => ?_, h.nodup, h.used, h.segments_le,
      h.entries_le.trans (Nat.le_succ k)⟩
    · obtain ⟨i, hi, hrest⟩ := h.entry e he
      exact ⟨i, by omega, hrest⟩
    · rcases Nat.lt_succ_iff_lt_or_eq.mp hi with hlt | rfl
      · exact h.complete i hlt v hv
      · rw [hnone] at hv
        cases hv
  · rename_i v hsome
    -- a segment seen before keeps its index, a new one gets the next
    have hindex : (if v.segment ∈ table.1 then table.1 else table.1 ++ [v.segment])[table.1.idxOf
        v.segment]? = some v.segment := by
      split
      · rename_i hin
        rw [List.getElem?_eq_getElem (List.idxOf_lt_length_of_mem hin), List.getElem_idxOf]
      · rename_i hout
        rw [List.idxOf_eq_length hout]
        simp
    have hkeep : ∀ (j : Nat) (s : Ref), table.1[j]? = some s →
        (if v.segment ∈ table.1 then table.1 else table.1 ++ [v.segment])[j]? = some s := by
      intro j s hj
      split
      · exact hj
      · rw [List.getElem?_append_left (List.getElem?_eq_some_iff.mp hj).1]
        exact hj
    have hlt : ∀ e ∈ table.2, e.slot < (k : Nat) := fun e he => by
      obtain ⟨i, hi, hslot, -⟩ := h.entry e he
      omega
    refine ⟨?_, ?_, ?_, ?_, ?_, ?_, ?_⟩
    · refine List.pairwise_append.mpr ⟨h.sorted, List.pairwise_singleton _ _, fun a ha b hb => ?_⟩
      rw [List.mem_singleton.mp hb]
      exact hlt a ha
    · intro e he
      rcases List.mem_append.mp he with he | he
      · obtain ⟨i, hi, hslot, hchild, h0, u, hu, hrec, hseg⟩ := h.entry e he
        exact ⟨i, by omega, hslot, hchild, h0, u, hu, hrec, hkeep _ _ hseg⟩
      · rw [List.mem_singleton.mp he]
        exact ⟨k, by omega, rfl, rfl, by positivity, v, hsome, rfl, by simpa using hindex⟩
    · intro i hi u hu
      rcases Nat.lt_succ_iff_lt_or_eq.mp hi with hlt | rfl
      · obtain ⟨e, he, hslot⟩ := h.complete i hlt u hu
        exact ⟨e, List.mem_append_left _ he, hslot⟩
      · exact ⟨_, List.mem_append_right _ (List.mem_singleton_self _), rfl⟩
    · split
      · exact h.nodup
      · rename_i hout
        exact List.nodup_append.mpr ⟨h.nodup, List.nodup_singleton _, fun a ha b hb => by
          rw [List.mem_singleton.mp hb]
          rintro rfl
          exact hout ha⟩
    · intro j hj
      by_cases hold : j < table.1.length
      · obtain ⟨e, he, hseg⟩ := h.used j hold
        exact ⟨e, List.mem_append_left _ he, hseg⟩
      · refine ⟨_, List.mem_append_right _ (List.mem_singleton_self _), ?_⟩
        split at hj
        · exact absurd hj hold
        · rename_i hout
          rw [List.length_append, List.length_singleton] at hj
          have hidx : table.1.idxOf v.segment = table.1.length := List.idxOf_eq_length hout
          simp only [hidx]
          omega
    · have := h.segments_le
      split <;> simp only [List.length_append, List.length_singleton] <;> omega
    · have := h.entries_le
      simp only [List.length_append, List.length_singleton]
      omega

theorem leafTable_spec (fanout : Nat) (locs : Int → Option BlockLocation) :
    Table locs fanout (leafTable fanout locs) := by
  unfold leafTable
  induction fanout with
  | zero => exact ⟨by simp, by simp, by simp, by simp, by simp, by simp, by simp⟩
  | succ k ih =>
    rw [List.range_succ, List.foldl_append]
    exact leafSlot_spec ih

/-! ## The rebuilt leaf -/

/-- The location of a block of `c`, or its absence. -/
def LocationHolds (K : Catalog) (c : Content) (blk : Nat) : Option BlockLocation → Prop
  | none => Hole c blk
  | some v => ∃ blocks raw, Item.segment v.segment blocks raw ∈ K
      ∧ blocks[v.record]? = some (window c (blk * blockSize) blockSize) ∧ ¬Hole c blk

/-- The bounds of a context are those that the JSON of a reference can carry. -/
theorem SealedSegment.portable {key : Bytes} {ref : Ref} {blocks : List Bytes} {raw : Bytes}
    (h : SealedSegment C scope key ref blocks raw) (hutf : Utf8 ref.key) : ref.Portable := by
  have hctx := h.context
  have hhead := length_headerBytes_le hctx
  have hsize := h.size_eq
  unfold ValidContext maxRecords at hctx
  push Not at hctx
  have hbody : ref.count * frameSize ≤ 1024 * frameSize := Nat.mul_le_mul_right _ hctx.2.2.2.2.2.1
  have hint : ((463 + 1024 * frameSize : Nat) : Int) ≤ intMax := by decide
  have hmin : intMin ≤ 0 := by decide
  have huint : 1024 ≤ uint32Max := by decide
  refine ⟨hutf, by omega, ?_, ?_⟩
  · rw [hsize]
    exact hmin.trans (by positivity)
  · rw [hsize]
    refine le_trans ?_ hint
    push_cast
    exact_mod_cast Nat.add_le_add hhead hbody

section Rebuilt

variable {start : Nat} {n : Node} {locs : Int → Option BlockLocation}

/-- What each entry of a table stands for. -/
theorem Table.entry_holds {k : Nat} {table : List Ref × List Entry} (h : Table locs k table)
    (hlocs : ∀ i < k, LocationHolds K c (start + i) (locs i)) (hsegments : n.segments = table.1) {e : Entry}
    (he : e ∈ table.2) :
    ∃ i < k, e.slot = (i : Nat) ∧ e.child = none ∧ 0 ≤ e.segment ∧ e.segment < n.segments.length
      ∧ (locs i).isSome ∧ ∃ blocks raw, Item.segment (n.segmentOf e) blocks raw ∈ K
        ∧ blocks[e.record]? = some (window c ((start + i) * blockSize) blockSize) ∧ ¬Hole c (start + i) := by
  obtain ⟨i, hi, hslot, hchild, hseg0, v, hv, hrec, hseg⟩ := h.entry e he
  have hloc := hlocs i hi
  rw [hv] at hloc
  have hof : n.segmentOf e = v.segment := by
    unfold Node.segmentOf
    rw [hsegments, List.getD, hseg, Option.getD_some]
  have hidx := (List.getElem?_eq_some_iff.mp hseg).1
  refine ⟨i, hi, hslot, hchild, hseg0, by rw [hsegments]; omega, by rw [hv]; rfl, ?_⟩
  rw [hof, hrec]
  exact hloc

/-- A leaf with the table of its locations has their content. -/
theorem Table.leafHolds {table : List Ref × List Entry} (h : Table locs shape.fanout.toNat table)
    (hlocs : ∀ i < shape.fanout.toNat, LocationHolds K c (start + i) (locs i)) (hsegments : n.segments = table.1)
    (hentries : n.entries = table.2) : LeafHolds K shape c start n where
  sparse blk hlo hhi hno := by
    obtain ⟨i, rfl⟩ := Nat.exists_eq_add_of_le hlo
    have hi : i < shape.fanout.toNat := by simpa [stride] using hhi
    cases hv : locs i with
    | none =>
      have hloc := hlocs i hi
      rw [hv] at hloc
      exact hloc
    | some v =>
      obtain ⟨e, he, hslot⟩ := h.complete i hi v hv
      exact absurd ⟨by rw [hslot]; simp, by rw [hslot]; simp⟩ (hno e (by rw [hentries]; exact he))
  record e he := by
    rw [hentries] at he
    obtain ⟨i, -, hslot, -, -, -, -, hloc⟩ := h.entry_holds hlocs hsegments he
    rw [hslot, Int.toNat_natCast]
    exact hloc

/-- **A rebuilt leaf is a sound body with the content of its locations.** -/
theorem leaf_ready (hK : K.Sound C scope keys) (hvalid : validateRoot shape = .ok ())
    (hfits : Fits shape 0 start) (hat : n.At shape 0 start)
    (hlocs : ∀ i < shape.fanout.toNat, LocationHolds K c (start + i) (locs i))
    (hbound : ∀ i < shape.fanout.toNat, (locs i).isSome → start + i < blockCount shape.capacity)
    (hne : (leafTable shape.fanout.toNat locs).2 ≠ []) :
    NodeReady C K shape c 0 start
      { n with segments := (leafTable shape.fanout.toNat locs).1
               entries := (leafTable shape.fanout.toNat locs).2 } := by
  have htable := leafTable_spec shape.fanout.toNat locs
  generalize leafTable shape.fanout.toNat locs = table at htable hne
  generalize hn : ({ n with segments := table.1, entries := table.2 } : Node) = m
  have hsegments : m.segments = table.1 := by rw [← hn]
  have hentries : m.entries = table.2 := by rw [← hn]
  have hmat : m.At shape 0 start := by
    rw [← hn]
    exact ⟨hat.capacity, hat.fanout, hat.level_eq, hat.start_eq⟩
  obtain ⟨hgeo, -, -⟩ := validateRoot_eq_ok.mp hvalid
  have hfan : (shape.fanout.toNat : Int) = shape.fanout := by
    rcases hgeo.fanout_cases with h | h <;> rw [h] <;> rfl
  have hfan256 : shape.fanout.toNat ≤ 256 := by
    rcases hgeo.fanout_cases with h | h <;> rw [h] <;> decide
  -- the position gives the geometry, the table everything about entries and segments
  obtain ⟨hshape, h0, hle, hlt, hal, hcapr, hfanr, hlevr, hstr⟩ := hmat.geometry hvalid hfits
  have hentry : ∀ e ∈ m.entries, _ := fun e he => htable.entry_holds hlocs hsegments (hentries ▸ he)
  have hsegment : ∀ s ∈ m.segments, ∃ blocks raw, Item.segment s blocks raw ∈ K := by
    intro s hs
    rw [hsegments] at hs
    obtain ⟨j, hj, rfl⟩ := List.mem_iff_getElem.mp hs
    obtain ⟨e, he, hej⟩ := htable.used j hj
    obtain ⟨-, -, -, -, -, -, -, blocks, raw, hin, -⟩ := hentry e (by rw [hentries]; exact he)
    refine ⟨blocks, raw, ?_⟩
    have hof : m.segmentOf e = table.1[j] := by
      unfold Node.segmentOf
      rw [hsegments, hej, List.getD, Int.toNat_natCast, List.getElem?_eq_getElem hj, Option.getD_some]
    rwa [← hof]
  have hmin : intMin ≤ 0 := by decide
  have hmax : (256 : Int) ≤ intMax := by decide
  have hlevel0 : m.level = 0 := hmat.level_eq
  have hchecked : m.Checked m.shape m.level m.start := by
    have hsle := htable.segments_le
    have hele := htable.entries_le
    have hmfan : m.shape.fanout = shape.fanout := hmat.fanout
    refine ⟨rfl, rfl, rfl, rfl, by rw [hmfan, hentries]; omega, by rw [hmfan, hsegments]; omega,
      by rw [hentries]; exact htable.sorted, fun e he => ?_, fun e he => ?_, fun hpos => ?_, ?_, ?_⟩
    · obtain ⟨i, -, hslot, -⟩ := hentry e he
      omega
    · obtain ⟨i, hi, hslot, hchild, hseg0, hseglt, hsome, blocks, raw, hin, hrec, -⟩ := hentry e he
      have hblk := hbound i hi hsome
      have hitem : SealedSegment C scope (keys.get (m.segmentOf e).key) (m.segmentOf e) blocks raw ∧ _ :=
        hK _ hin
      have hcap : m.shape.capacity = shape.capacity := hmat.capacity
      refine ⟨by rw [hmfan]; omega, ?_, ?_⟩
      · rw [hcap, hmat.start_eq, hlevel0, hslot, Int.toNat_natCast]
        simpa [stride] using hblk
      · rw [if_neg (by omega)]
        exact ⟨hchild, hseg0, hseglt, hitem.1.kind, by
          rw [hitem.1.count]; exact (List.getElem?_eq_some_iff.mp hrec).1⟩
    · omega
    · intro j hj
      rw [hsegments] at hj
      rw [hentries]
      exact htable.used j hj
    · rw [hsegments]
      exact htable.nodup
  refine ⟨⟨hshape, h0, hle, hlt, hal, by rw [hlevel0]; rfl, hchecked, ?_, hsegment, ?_⟩, hmat,
    by rwa [hentries], htable.leafHolds hlocs hsegments hentries⟩
  · refine ⟨hcapr, hfanr, hlevr, hstr, fun s hs => ?_, fun e he => ?_⟩
    · obtain ⟨blocks, raw, hin⟩ := hsegment s hs
      have hitem : SealedSegment C scope (keys.get s.key) s blocks raw ∧ Utf8 s.key := hK _ hin
      exact hitem.1.portable hitem.2
    · obtain ⟨i, hi, hslot, hchild, hseg0, hseglt, -, blocks, raw, hin, hrec, -⟩ := hentry e he
      have hitem : SealedSegment C scope (keys.get (m.segmentOf e).key) (m.segmentOf e) blocks raw
          ∧ Utf8 (m.segmentOf e).key := hK _ hin
      have hreclt : e.record < blocks.length := (List.getElem?_eq_some_iff.mp hrec).1
      have hcount := (hitem.1.portable hitem.2).2.1
      have hlen := hitem.1.count
      have hsegle := htable.segments_le.trans htable.entries_le
      rw [hsegments] at hseglt
      exact ⟨⟨by omega, by omega⟩, by simp [hchild], ⟨by omega, by omega⟩, by omega⟩
  · intro link hlink
    obtain ⟨e, he, hsome⟩ := List.mem_filterMap.mp hlink
    obtain ⟨i, -, -, hchild, -⟩ := hentry e he
    rw [hchild] at hsome
    cases hsome

end Rebuilt

end Helmr.BlockFormat
