import Helmr.BlockFormat.Update

/-!
# Block format — staging the changed blocks

After `stageData` every changed block is located: it is zero and has no record, or it is not and is a record of a
segment of the catalog. Blocks wait in `pending` until their segment is sealed; the loop keeps that every block
already seen is located or waiting (`DataInv`). `triple_flushData` seals what waits, and `triple_stageData` is the
induction over the blocks.
-/

namespace Helmr.BlockFormat

open Wire Wire.Json Fallible Hoare

variable {C : Crypto} {rand : Nat → Digest} {cfg : WriterConfig} {K₀ K K' : Catalog} {changes : Changes}

theorem Located.mono (h : K ⊆ K') {values : Values} {b : Nat} (hb : Located K changes values b) :
    Located K' changes values b := by
  unfold Located at hb ⊢
  cases hv : values b with
  | none => simpa only [hv] using hb
  | some v =>
    simp only [hv] at hb ⊢
    obtain ⟨blocks, raw, hin, hblock⟩ := hb
    exact ⟨blocks, raw, h hin, hblock⟩

theorem Located.of_eq {values values' : Values} {b : Nat} (hb : Located K changes values b)
    (heq : values' b = values b) : Located K changes values' b := by
  unfold Located at hb ⊢
  rwa [heq]

theorem recordPending_of_notMem {r : Ref} {i : Nat} {pending : List Nat} {values : Values} {b : Nat}
    (h : b ∉ pending) : recordPending r i pending values b = values b := by
  induction pending generalizing i values with
  | nil => rfl
  | cons x rest ih =>
    simp only [List.mem_cons, not_or] at h
    rw [recordPending, ih h.2, Function.update_of_ne h.1]

theorem recordPending_getElem? {r : Ref} {i j : Nat} {pending : List Nat} {values : Values} {b : Nat}
    (hnodup : pending.Nodup) (h : pending[j]? = some b) :
    recordPending r i pending values b = some { segment := r, record := i + j } := by
  induction pending generalizing i j values with
  | nil => simp at h
  | cons x rest ih =>
    rw [List.nodup_cons] at hnodup
    cases j with
    | zero =>
      cases (by simpa using h : x = b)
      rw [recordPending, recordPending_of_notMem hnodup.1, Function.update_self, Nat.add_zero]
    | succ j =>
      rw [recordPending, ih hnodup.2 (by simpa using h), show i + 1 + j = i + (j + 1) by omega]

/-- The data of a changed block. -/
def blockData (changes : Changes) (b : Nat) : Bytes := (changes.lookup b).getD []

/-- Every block seen so far is located or waiting. -/
def DataInv (C : Crypto) (cfg : WriterConfig) (K₀ : Catalog) (changes : Changes) (done pending : List Nat)
    (values : Values) (s : Staging) : Prop :=
  ∃ K : Catalog, K₀ <+: K ∧ Staged C cfg.scope cfg.keys K s
    ∧ ∀ b ∈ done, b ∉ pending → Located K changes values b

/-- **Flushing locates what waits.** The sealed segment joins the catalog, and the waiting blocks are its records in
order. -/
theorem triple_flushData (hC : C.Lawful) (hutf : Utf8 cfg.activeKey) {values : Values}
    {done pending : List Nat} (hnodup : pending.Nodup) (hdata : ∀ b ∈ pending, blockData changes b ≠ zeroBlock) :
    Triple (fresh rand) (DataInv C cfg K₀ changes done pending values)
      ((stagingWriter rand cfg).flushData C values (pending.map (blockData changes)) pending)
      (fun values' => DataInv C cfg K₀ changes done [] values')
      (Grown C cfg.scope cfg.keys K₀) := by
  unfold Writer.flushData
  refine Triple.ite (fun hempty => Triple.pure fun s _ hs => ?_) fun hne => ?_
  · rw [List.map_eq_nil_iff.mp hempty] at hs
    exact hs
  · refine Triple.bind (Q := fun sealed s => DataInv C cfg K₀ changes done pending values s
      ∧ (Item.segment sealed.1 (pending.map (blockData changes)) sealed.2).Sound C cfg.scope cfg.keys [])
      (triple_sealNew (fun s ref b hs _ hseal => ?_) fun s hs => ?_) fun sealed => ?_
    · obtain ⟨K, hK, hstaged, hlocated⟩ := hs
      have hsegment := sealedSegment_of_sealObject hC rfl hseal
      have hkey : ref.key = cfg.activeKey := by
        obtain ⟨-, -, -, -, -, body, -, -, rfl⟩ := sealObject_eq_ok.mp hseal
        rfl
      exact ⟨⟨K, hK, hstaged.draw, hlocated⟩, by rw [hkey]; exact hsegment, by rw [hkey]; exact hutf⟩
    · obtain ⟨K, hK, hstaged, -⟩ := hs
      exact ⟨K, hK, hstaged.draw⟩
    -- the segment is stored; a block that did not wait keeps its place
    · refine Triple.bind (triple_storeObject fun s hs => ?_) fun _ => Triple.pure fun _ _ h => h
      obtain ⟨⟨K, hK, hstaged, hlocated⟩, hsound⟩ := hs
      refine ⟨K ++ [Item.segment sealed.1 (pending.map (blockData changes)) sealed.2],
        hK.trans (List.prefix_append _ _), hstaged.store (hsound.mono (List.nil_subset _)), ?_⟩
      intro b hb _
      by_cases hwait : b ∈ pending
      · obtain ⟨j, hj, hjb⟩ := List.mem_iff_getElem.mp hwait
        have hget : pending[j]? = some b := by rw [List.getElem?_eq_getElem hj, hjb]
        unfold Located
        rw [recordPending_getElem? hnodup hget]
        refine ⟨pending.map (blockData changes), sealed.2, by simp, ?_, hdata b hwait⟩
        rw [Nat.zero_add, List.getElem?_map, hget]
        rfl
      · exact ((hlocated b hb hwait).mono (List.subset_append_left _ _)).of_eq
          (recordPending_of_notMem hwait)

/-- **Staging the data locates every changed block.** Induction on the blocks still to come. -/
theorem triple_stageData (hC : C.Lawful) (hutf : Utf8 cfg.activeKey) (rest done pending : List Nat)
    {values : Values} (hnodup : (done ++ rest).Nodup) (hsub : pending ⊆ done)
    (hpending : pending.Nodup) (hdata : ∀ b ∈ pending, blockData changes b ≠ zeroBlock) :
    Triple (fresh rand) (DataInv C cfg K₀ changes done pending values)
      ((stagingWriter rand cfg).stageData C changes rest values (pending.map (blockData changes)) pending)
      (fun values' => DataInv C cfg K₀ changes (done ++ rest) [] values')
      (Grown C cfg.scope cfg.keys K₀) := by
  induction rest generalizing done pending values with
  | nil =>
    rw [List.append_nil, Writer.stageData]
    exact triple_flushData hC hutf hpending hdata
  | cons b rest ih =>
    have hnew : b ∉ done := fun hb => by
      rw [List.nodup_append] at hnodup
      exact hnodup.2.2 b hb b (by simp) rfl
    have hassoc : done ++ b :: rest = (done ++ [b]) ++ rest := by simp
    rw [hassoc] at hnodup ⊢
    have hsub' : pending ⊆ done ++ [b] := List.Subset.trans hsub (List.subset_append_left _ _)
    have hpush : pending ++ [b] ⊆ done ++ [b] :=
      List.append_subset.mpr ⟨hsub', List.subset_append_right _ _⟩
    have hpushNodup : (pending ++ [b]).Nodup :=
      List.nodup_append.mpr ⟨hpending, List.nodup_singleton _, fun x hx y hy => by
        rw [List.mem_singleton.mp hy]
        rintro rfl
        exact hnew (hsub hx)⟩
    -- a block that waits: every other one is as before
    have hwait : ∀ s, DataInv C cfg K₀ changes done pending values s →
        DataInv C cfg K₀ changes (done ++ [b]) (pending ++ [b]) values s := by
      rintro s ⟨K, hK, hstaged, hlocated⟩
      refine ⟨K, hK, hstaged, fun x hx hnot => ?_⟩
      simp only [List.mem_append, List.mem_singleton, not_or] at hx hnot
      exact hlocated x (hx.resolve_right hnot.2) hnot.1
    have hmap : pending.map (blockData changes) ++ [blockData changes b]
        = (pending ++ [b]).map (blockData changes) := by simp
    rw [Writer.stageData, show (changes.lookup b).getD [] = blockData changes b from rfl, hmap]
    refine Triple.ite (fun hzero => ?_) fun hne => ?_
    · refine (ih _ _ hnodup hsub' hpending hdata).pre ?_
      rintro s ⟨K, hK, hstaged, hlocated⟩
      refine ⟨K, hK, hstaged, fun x hx hnot => ?_⟩
      by_cases hxb : x = b
      · unfold Located
        rw [hxb, Function.update_self]
        exact hzero
      · rcases List.mem_append.mp hx with hx | hx
        · exact (hlocated x hx hnot).of_eq (Function.update_of_ne hxb _ _)
        · exact absurd (List.mem_singleton.mp hx) hxb
    have hpushData : ∀ x ∈ pending ++ [b], blockData changes x ≠ zeroBlock := by
      simpa [or_imp, forall_and] using ⟨hdata, hne⟩
    refine Triple.ite (fun hfull => ?_) fun _ => ?_
    · exact Triple.bind ((triple_flushData hC hutf hpushNodup hpushData).pre hwait) fun values' =>
        ih _ [] hnodup (List.nil_subset _) List.nodup_nil (by simp)
    · exact (ih _ _ hnodup hpush hpushNodup hpushData).pre hwait

end Helmr.BlockFormat
