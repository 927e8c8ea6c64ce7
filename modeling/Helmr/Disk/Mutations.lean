import Helmr.Disk.Linearizable

/-!
# Disk — counting mutations

A write or a trim of at least one byte that succeeds is a mutation: it is numbered by the generation of the
version, leaves a dirty block and reports its whole length (`Commits.counted`). Nothing else moves the generation
(`step_moved`). The content of a version is its first content with the mutations of its trace applied in order
(`Label.Effect.applied_eq`).
-/

namespace Helmr.Disk

open Wire BlockFormat Fallible Hoare Runs WritableVersion

/-- The range a step wrote. -/
def Label.mutation : Label → Option (Nat × Bytes)
  | .writeReturned _ offset data (.ok _) => if data = [] then none else some (offset.toNat, data)
  | _ => none

/-- A content after mutations. -/
def applied (c : Content) (ms : List (Nat × Bytes)) : Content := ms.foldl (fun c m => splice c m.1 m.2) c

theorem applied_append (c : Content) (ms ms' : List (Nat × Bytes)) :
    applied c (ms ++ ms') = applied (applied c ms) ms' :=
  List.foldl_append

/-- The mutations of a trace with one more label. -/
theorem filterMap_snoc {α : Type} (f : α → Option (Nat × Bytes)) (trace : List α) (a : α) :
    (trace ++ [a]).filterMap f = trace.filterMap f ++ (f a).toList := by
  rw [List.filterMap_append]
  cases h : f a <;> simp [h]

theorem Label.Effect.applied_eq {c c' : Content} {l : Label} (h : l.Effect c c') :
    c' = applied c l.mutation.toList := by
  cases l with
  | writeReturned i offset data outcome =>
    cases outcome with
    | error e => exact h
    | ok n =>
      have heq : c' = splice c offset.toNat data := h.2
      rw [heq]
      by_cases hnil : data = []
      · simp [Label.mutation, hnil, applied]
      · simp [Label.mutation, hnil, applied]
  | internal => exact h
  | snapshot i => exact h
  | readReturned i offset length r => exact h

section Version

variable {R : Type} {cfg : Config R} {d d' : WritableVersion R}

/-- What a successful write or trim counts as. -/
structure Counted (d : WritableVersion R) (r : Request) (n : Int) (d' : WritableVersion R) : Prop where
  length : n = r.length
  nonneg : 0 ≤ r.length
  root : d'.rootGeneration = d.rootGeneration
  nothing : r.length = 0 → d'.generation = d.generation ∧ d'.dirty = d.dirty
  counts : r.length ≠ 0 → d'.generation = (d.generation + 1) % 2 ^ 64 ∧ d'.dirty.entries ≠ []

theorem entries_ne_nil_of_lookup {m : Changes} {b : Nat} {data : Bytes} (h : m.lookup b = some data) :
    m.entries ≠ [] := by
  intro hnil
  have hmem := AList.mem_lookup_iff.1 h
  rw [hnil] at hmem
  cases hmem

theorem Commits.counted {r : Request} {offset n : Int} {loaded : Changes}
    (h : Commits d r offset loaded n d') : Counted d r n d' := by
  cases h with
  | nothing h0 hzero => exact ⟨hzero.symm, hzero.ge, rfl, fun _ => ⟨rfl, rfl⟩, fun h => absurd hzero h⟩
  | blocks h0 hlen sink changes h =>
    refine ⟨rfl, hlen.le, rfl, fun h => absurd h hlen.ne', fun _ => ⟨rfl, ?_⟩⟩
    have hkeys := keys_of_changes h
    have hfirst : firstBlock offset ∈ changes.map Prod.fst := by
      rw [hkeys, mem_blockRange]
      exact ⟨le_rfl, Nat.div_le_div_right (by omega)⟩
    obtain ⟨⟨b, data⟩, hmem, -⟩ := List.mem_map.mp hfirst
    have hnodup : (changes.map Prod.fst).Nodup := hkeys ▸ nodup_blockRange _ _
    exact entries_ne_nil_of_lookup (lookup_foldl_insert_of_mem changes d.dirty hnodup hmem)

end Version

/-! ## What a step does to the counts -/

/-- The batch a caller encodes, with the generation of its cut. -/
def Thread.batch {R : Type} : Thread R → Option (Changes × Nat)
  | .encoding _ frozen generation _ => some (frozen, generation)
  | .encoded frozen generation _ => some (frozen, generation)
  | _ => none

/-- A caller is between the call of a write and its return. -/
def Thread.writes {R : Type} : Thread R → Bool
  | .writing .. | .loading .. => true
  | _ => false

section Steps

variable {R : Type} {cfg : Config R} {s s' : System R}

/-- A step that leaves the capture mutex as it is changes nothing that is counted, mutates, or freezes. -/
inductive Moved (s : System R) (l : Label) (s' : System R) : Prop
  | quiet (hl : l.mutation = none) (hshared : OnlySink s.shared s'.shared)
      (hbatch : ∀ j, (s'.threads j).batch = (s.threads j).batch)
  | mutates (i : Nat) (m : Nat × Bytes) (hl : l.mutation = some m) (hwrites : (s.threads i).writes = true)
      (hgeneration : s'.shared.generation = (s.shared.generation + 1) % 2 ^ 64)
      (hdirty : s'.shared.dirty.entries ≠ []) (hroot : s'.shared.rootGeneration = s.shared.rootGeneration)
      (htree : s'.shared.tree = s.shared.tree) (hbatch : ∀ j, (s'.threads j).batch = (s.threads j).batch)
  | freezes (i : Nat) (hl : l.mutation = none) (hi : s.threads i = .cutting)
      (hdirty : s.shared.dirty.entries ≠ [])
      (hshared : s'.shared = { s.shared with sink := s'.shared.sink, frozen := s.shared.dirty, dirty := ∅ })
      (hthreads : s'.threads = Function.update s.threads i
        (.encoding s.shared.tree.root s.shared.dirty s.shared.generation 0))

theorem batch_update {i : Nat} {t t' : Thread R} (hi : s.threads i = t) (h : t'.batch = t.batch) (j : Nat) :
    (Function.update s.threads i t' j).batch = (s.threads j).batch := by
  by_cases hj : j = i
  · rw [hj, Function.update_self, h, hi]
  · rw [Function.update_of_ne hj]

/-- A write that returns successfully. -/
theorem Commits.moved {i : Nat} {r : Request} {offset n : Int} {loaded : Changes} {d : WritableVersion R}
    {t : Thread R} (hi : s.threads i = t) (hwrites : t.writes = true) (hbatch : t.batch = none)
    (h : Commits s.shared r offset loaded n d) :
    Moved s (.writeReturned i offset r.data (.ok n)) (s.move i .idle d) := by
  have hkept : ∀ j, ((s.move i .idle d).threads j).batch = (s.threads j).batch := batch_update hi hbatch.symm
  have hcounted := h.counted
  have hlen := length_request r hcounted.nonneg
  cases h with
  | nothing h0 hzero =>
    have hnil : r.data = [] := List.length_eq_zero_iff.mp (by omega)
    exact .quiet (by simp [Label.mutation, hnil]) rfl hkept
  | blocks h0 hpos sink changes h =>
    have hne : r.data ≠ [] := fun hnil => by
      rw [hnil, List.length_nil] at hlen
      omega
    obtain ⟨hgeneration, hdirty⟩ := hcounted.counts hpos.ne'
    exact .mutates i (offset.toNat, r.data) (by simp [Label.mutation, hne]) (hi ▸ hwrites) hgeneration hdirty rfl rfl
      hkept

/-- Every step between two holders of the capture mutex is one of `Moved`. -/
theorem step_moved {l : Label} (h : Inv cfg s) (hstep : Step cfg s l s') (hcapturer : s'.capturer = s.capturer) :
    Moved s l s' := by
  have hrefl : OnlySink s.shared s.shared := rfl
  cases hstep with
  | readRefused hi hbounds => exact .quiet rfl hrefl fun _ => rfl
  | creditDeleted bytes => exact .quiet rfl rfl fun _ => rfl
  | recount charges remaining hle =>
    refine .quiet rfl ?_ fun _ => rfl
    rfl
  | writeFirstDone hi hrun =>
    exact Commits.moved hi rfl rfl (writeFirst_commits.of_from hrun)
  | writeFirstFailed hi hrun =>
    exact .quiet rfl (writeFirst_commits.of_from hrun) (batch_update hi rfl)
  | @writeFetches i r offset ctx missing d hi hrun =>
    have hd : d = s.shared := writeFirst_commits.of_from hrun
    exact .quiet rfl (by rw [hd]; exact hrefl) (batch_update hi rfl)
  | @writeSecond i r offset tree generation blocks ctx ctx' outcome d hi hfresh hrun =>
    cases outcome with
    | ok n => exact Commits.moved hi rfl rfl (writeLocked_commits.of_from hrun)
    | error e => exact .quiet rfl (writeLocked_commits.of_from hrun) (batch_update hi rfl)
  -- these steps change the holder of the capture mutex
  | captureLocked hi hfree =>
    rw [hfree] at hcapturer
    cases hcapturer
  | captureUnchanged hi hrun | captureRefused hi hrun =>
    have hheld := (h.at hi).1
    rw [hheld] at hcapturer
    cases hcapturer
  | captureMerged hi | captureInstalled hi =>
    have hheld := (h.at hi).1
    rw [hheld] at hcapturer
    cases hcapturer
  -- the cut: what was dirty is the batch, and nothing is dirty
  | @captureFroze i ctx frozen d hi hrun =>
    obtain ⟨rfl, hd, hdirty⟩ := cut_outcome.of_from hrun
    refine .freezes i rfl hi hdirty hd ?_
    rw [hd]
    rfl
  | writeCalled r offset hi => exact .quiet rfl hrefl (batch_update hi rfl)
  | captureStored hi hbudget hrun => exact .quiet rfl rfl (batch_update hi rfl)
  | _ hi => exact .quiet rfl hrefl (batch_update hi rfl)

end Steps

end Helmr.Disk
