import Helmr.Disk.LocalVersion

/-!
# Disk — a generation names a content

The mutations of a local version are numbered by the generation, so a generation stands for the content after
that many of them. `Shows` is that relation, kept for the installed root, for the batch a capture encodes and
for the head. Between the sample of `Capture` and the cut of its dirty blocks the request gate keeps every
writer out, which is why the sampled generation is that of the cut.

* `Numbered.moved`, `.merged`, `.installed`: what a step of the disk does to the numbers;
* `LocalInv.inner`, `.regates`, `.ends`, `.heads`: a step inside the version, one that only passes gates on,
  the end of a capture, and what happens to the head. `local_step` puts every step under one of them.
-/

namespace Helmr.Disk

open Wire BlockFormat Fallible Hoare Runs WritableVersion

/-- Generation `g` and content `c` are those after the first `m` mutations. A generation is a 64-bit counter. -/
structure Shows (first : Content) (ms : List (Nat × Bytes)) (g : Nat) (c : Content) (m : Nat) : Prop where
  le : m ≤ ms.length
  generation : g = m % 2 ^ 64
  content : c = applied first (ms.take m)

theorem Shows.extend {first c : Content} {ms : List (Nat × Bytes)} {g m : Nat} (h : Shows first ms g c m)
    (more : List (Nat × Bytes)) : Shows first (ms ++ more) g c m where
  le := h.le.trans (by simp)
  generation := h.generation
  content := by rw [List.take_append_of_le_length h.le]; exact h.content

theorem Shows.all (first : Content) (ms : List (Nat × Bytes)) :
    Shows first ms (ms.length % 2 ^ 64) (applied first ms) ms.length :=
  ⟨le_rfl, rfl, by rw [List.take_length]⟩

section Invariants

variable {R : Type} {cfg : Config R} {first : Content} {ms : List (Nat × Bytes)}

/-- What the counts of a version stand for. -/
structure Numbered (cfg : Config R) (first : Content) (ms : List (Nat × Bytes)) (s : System R) : Prop where
  inv : Inv cfg s
  content : s.content cfg = applied first ms
  generation : s.shared.generation = ms.length % 2 ^ 64
  root : ∃ m, Shows first ms s.shared.rootGeneration (cfg.denotes s.shared.tree.root) m
    ∧ (s.shared.dirty.entries = [] → s.shared.frozen.entries = [] → m = ms.length)
  batch : ∀ j frozen g, (s.threads j).batch = some (frozen, g) → frozen.entries ≠ []
    ∧ ∃ m, Shows first ms g (overlay frozen (cfg.denotes s.shared.tree.root)) m
      ∧ (s.shared.dirty.entries = [] → m = ms.length)

theorem Numbered.opened (cfg : Config R) (root : R) (stagedBytes : Int) :
    Numbered cfg (cfg.denotes root) [] (System.opened root stagedBytes) where
  inv := Inv.opened root stagedBytes
  content := by
    show overlay ∅ (overlay ∅ (cfg.denotes root)) = _
    rw [overlay_empty, overlay_empty]
    rfl
  generation := rfl
  root := ⟨0, ⟨le_rfl, rfl, rfl⟩, fun _ _ => rfl⟩
  batch j frozen g h := by cases h

/-- A batch in a caller's hands is the frozen map, and so not empty. -/
theorem Inv.frozen_of_batch {s : System R} (h : Inv cfg s) {j : Nat} {frozen : Changes} {g : Nat}
    (hb : (s.threads j).batch = some (frozen, g)) : s.shared.frozen = frozen := by
  have hthread := h.thread j
  cases ht : s.threads j <;> rw [ht] at hb hthread <;> simp only [Thread.batch, Option.some.injEq,
    Prod.mk.injEq, reduceCtorEq] at hb
  · rw [hthread.2.1, hb.1]
  · rw [hthread.2.1, hb.1]

/-- Where nothing is dirty or frozen the installed root is the content. -/
theorem content_of_clean {d : WritableVersion R} (hdirty : d.dirty.entries = []) (hfrozen : d.frozen = ∅) :
    d.content cfg = cfg.denotes d.tree.root := by
  have hd : d.dirty = ∅ := AList.ext hdirty
  show overlay d.dirty (overlay d.frozen _) = _
  rw [hd, hfrozen, overlay_empty, overlay_empty]

/-- **A step inside the version** keeps the numbering. -/
theorem Numbered.moved {s s' : System R} {l : Label} (h : Numbered cfg first ms s) (hstep : Step cfg s l s')
    (hcapturer : s'.capturer = s.capturer) : Numbered cfg first (ms ++ l.mutation.toList) s' := by
  obtain ⟨hinv, heffect⟩ := step_content h.inv hstep
  have hcontent : s'.content cfg = applied first (ms ++ l.mutation.toList) := by
    rw [applied_append, ← h.content]
    exact heffect.applied_eq
  cases step_moved h.inv hstep hcapturer with
  | quiet hl hshared hbatch =>
    rw [hl, Option.toList_none, List.append_nil] at hcontent ⊢
    refine ⟨hinv, hcontent, ?_, ?_, ?_⟩
    all_goals rw [hshared]
    · exact h.generation
    · exact h.root
    · intro j frozen g hj
      exact h.batch j frozen g ((hbatch j).symm.trans hj)
  | mutates i m hl hwrites hgeneration hdirty hroot htree hbatch =>
    rw [hl] at hcontent ⊢
    refine ⟨hinv, hcontent, ?_, ?_, fun j frozen g hj => ?_⟩
    · rw [hgeneration, h.generation, Option.toList_some, List.length_append, List.length_singleton, Nat.mod_add_mod]
    · obtain ⟨m, hm, -⟩ := h.root
      rw [hroot, htree]
      exact ⟨m, hm.extend _, fun hnil => absurd hnil hdirty⟩
    · obtain ⟨hne, m, hm, -⟩ := h.batch j frozen g ((hbatch j).symm.trans hj)
      rw [htree]
      exact ⟨hne, m, hm.extend _, fun hnil => absurd hnil hdirty⟩
  | freezes i hl hi hdirty hshared hthreads =>
    rw [hl, Option.toList_none, List.append_nil] at hcontent ⊢
    have hempty : s.shared.frozen = ∅ := (h.inv.at hi).2
    refine ⟨hinv, hcontent, ?_, ?_, fun j frozen g hj => ?_⟩
    · rw [hshared]
      exact h.generation
    · obtain ⟨m, hm, -⟩ := h.root
      rw [hshared]
      exact ⟨m, hm, fun _ hnil => absurd hnil hdirty⟩
    · rw [hthreads] at hj
      by_cases heq : j = i
      · -- the batch is the whole content of this moment
        rw [heq, Function.update_self, Thread.batch, Option.some.injEq, Prod.mk.injEq] at hj
        obtain ⟨rfl, rfl⟩ := hj
        refine ⟨hdirty, ms.length, ?_, fun _ => rfl⟩
        have hnow : overlay s.shared.dirty (cfg.denotes s.shared.tree.root) = applied first ms := by
          rw [← h.content]
          show _ = overlay s.shared.dirty (overlay s.shared.frozen _)
          rw [hempty, overlay_empty]
        rw [hshared, h.generation]
        show Shows first ms _ (overlay s.shared.dirty (cfg.denotes s.shared.tree.root)) _
        rw [hnow]
        exact Shows.all first ms
      · rw [Function.update_of_ne heq] at hj
        have hbatch := h.inv.frozen_of_batch hj
        exact absurd hempty fun hnil => (h.batch j frozen g hj).1 (by rw [← hbatch, hnil]; rfl)

/-- The capture mutex changes hands, and nothing that is counted does. -/
theorem Numbered.handover {s s' : System R} (h : Numbered cfg first ms s) (hinv : Inv cfg s')
    (hshared : OnlySink s.shared s'.shared) (hbatch : ∀ j, (s'.threads j).batch = (s.threads j).batch) :
    Numbered cfg first ms s' := by
  refine ⟨hinv, hshared.content_eq.trans h.content, ?_, ?_, ?_⟩
  all_goals rw [hshared]
  · exact h.generation
  · exact h.root
  · intro j frozen g hj
    exact h.batch j frozen g ((hbatch j).symm.trans hj)

section Ends

variable {s : System R} {i generation : Nat} {frozen : Changes}

/-- No caller but the one that ends its capture has a batch. -/
theorem batch_only (h : Inv cfg s) (hi : s.capturer = some i) (j : Nat) :
    (Function.update s.threads i .idle j).batch = none := by
  by_cases hj : j = i
  · rw [hj, Function.update_self]
    rfl
  · rw [Function.update_of_ne hj]
    have hthread := h.thread j
    cases ht : s.threads j <;> rw [ht] at hthread
    case encoding => exact absurd (Option.some.inj (hthread.1.symm.trans hi)) hj
    case encoded => exact absurd (Option.some.inj (hthread.1.symm.trans hi)) hj
    all_goals rfl

/-- A failed capture gives its blocks back. -/
theorem Numbered.merged {e : Error} (h : Numbered cfg first ms s)
    (hi : s.threads i = .encoded frozen generation (.error e)) :
    Numbered cfg first ms { s.move i .idle (s.shared.mergeBack cfg frozen) with capturer := none } := by
  obtain ⟨hinv, hcontent⟩ := step_content h.inv (.captureMerged hi)
  obtain ⟨hheld, hbatch, -⟩ := h.inv.at hi
  have hcounts : OnlySink { s.shared with dirty := s.shared.dirty ∪ frozen, frozen := ∅, sink := _ }
      (s.shared.mergeBack cfg frozen) := reserve_onlySink cfg 1 0 _
  obtain ⟨hne, -⟩ := h.batch i frozen generation (by rw [hi]; rfl)
  have hdirty : (s.shared.dirty ∪ frozen).entries ≠ [] := fun hnil => by
    have hunion : s.shared.dirty ∪ frozen = ∅ := AList.ext hnil
    obtain ⟨⟨b, data⟩, hmem⟩ := List.exists_mem_of_ne_nil _ hne
    have hin : b ∈ s.shared.dirty ∪ frozen := AList.mem_union.mpr (.inr (List.mem_keys_of_mem hmem))
    rw [hunion] at hin
    exact AList.notMem_empty b hin
  refine ⟨hinv, hcontent.trans h.content, ?_, ?_, fun j b g hj => ?_⟩
  · show (s.shared.mergeBack cfg frozen).generation = _
    rw [hcounts]
    exact h.generation
  · obtain ⟨m, hm, -⟩ := h.root
    refine ⟨m, ?_, fun hnil => absurd hnil ?_⟩
    · show Shows first ms (s.shared.mergeBack cfg frozen).rootGeneration
        (cfg.denotes (s.shared.mergeBack cfg frozen).tree.root) m
      rw [hcounts]
      exact hm
    · show (s.shared.mergeBack cfg frozen).dirty.entries ≠ []
      rw [hcounts]
      exact hdirty
  · exact absurd ((batch_only h.inv hheld j).symm.trans hj) nofun

theorem Numbered.installed {root : R} (h : Numbered cfg first ms s)
    (hi : s.threads i = .encoded frozen generation (.ok root)) :
    Numbered cfg first ms { s.move i .idle (s.shared.install root generation) with capturer := none }
      ∧ ∃ m, Shows first ms generation (cfg.denotes root) m := by
  obtain ⟨hinv, hcontent⟩ := step_content h.inv (.captureInstalled hi)
  obtain ⟨hheld, hbatch, hroot⟩ := h.inv.at hi
  obtain ⟨-, m, hm, hall⟩ := h.batch i frozen generation (by rw [hi]; rfl)
  rw [← hroot root rfl] at hm
  refine ⟨⟨hinv, hcontent.trans h.content, h.generation, ⟨m, hm, fun hdirty _ => hall hdirty⟩,
    fun j b g hj => ?_⟩, m, hm⟩
  exact absurd ((batch_only h.inv hheld j).symm.trans hj) nofun

end Ends

/-! ## The gates -/

variable {p : LocalVersion R}

/-- What a caller of `Capture` or `Flush` knows. -/
def TaskInv (cfg : Config R) (first : Content) (ms : List (Nat × Bytes)) (p : LocalVersion R) (i : Nat) :
    Task R → Prop
  | .idle => True
  | .gated => p.request = some i
  | .locked => p.request = some i ∧ p.commit = some i
  | .capturing purpose => p.commit = some i ∧ ∀ g, purpose = .capture g →
      ((p.disk.threads i).batch = none → p.request = some i ∧ g = ms.length % 2 ^ 64)
        ∧ ∀ frozen at', (p.disk.threads i).batch = some (frozen, at') → at' = g
  | .captured purpose root => p.commit = some i ∧ p.disk.shared.tree.root = root
      ∧ ∀ g, purpose = .capture g → ∃ m, Shows first ms g (cfg.denotes root) m
  | .persisted purpose root => p.commit = some i ∧ p.disk.shared.tree.root = root ∧ p.head = root
      ∧ ∀ g, purpose = .capture g → ∃ m, Shows first ms g (cfg.denotes root) m

structure LocalInv (cfg : Config R) (first : Content) (ms : List (Nat × Bytes)) (p : LocalVersion R) :
    Prop where
  disk : Numbered cfg first ms p.disk
  gate : ∀ j, (p.disk.threads j).writes = true → p.request = some j ∧ p.tasks j = .idle
  task : ∀ i, TaskInv cfg first ms p i (p.tasks i)
  capturer : ∀ i, p.disk.capturer = some i → ∃ purpose, p.tasks i = .capturing purpose
  -- the generation of a persisted head is set behind it
  head : (∀ i purpose root, p.tasks i ≠ .persisted purpose root) →
    ∃ m, Shows first ms p.headGeneration (cfg.denotes p.head) m

theorem LocalInv.opened (cfg : Config R) (root : R) (stagedBytes : Int) :
    LocalInv cfg (cfg.denotes root) [] (LocalVersion.opened root stagedBytes) where
  disk := Numbered.opened cfg root stagedBytes
  gate j h := by cases h
  task i := trivial
  capturer i h := by cases h
  head _ := ⟨0, le_rfl, rfl, rfl⟩

/-- A task depends on the gates its caller holds and on what they protect. -/
theorem TaskInv.mono {p' : LocalVersion R} {j : Nat} {t : Task R} (h : TaskInv cfg first ms p j t)
    (hrequest : p.request = some j → p'.request = some j) (hcommit : p.commit = some j → p'.commit = some j)
    (hbatch : (p'.disk.threads j).batch = (p.disk.threads j).batch)
    (hkept : p.commit = some j → p'.disk.shared.tree.root = p.disk.shared.tree.root ∧ p'.head = p.head) :
    TaskInv cfg first ms p' j t := by
  cases t with
  | idle => trivial
  | gated => exact hrequest h
  | locked => exact ⟨hrequest h.1, hcommit h.2⟩
  | capturing purpose =>
    refine ⟨hcommit h.1, fun g hg => ⟨fun hnone => ?_, fun frozen at' hsome => ?_⟩⟩
    · rw [hbatch] at hnone
      obtain ⟨hheld, hnow⟩ := (h.2 g hg).1 hnone
      exact ⟨hrequest hheld, hnow⟩
    · rw [hbatch] at hsome
      exact (h.2 g hg).2 frozen at' hsome
  | captured purpose root => exact ⟨hcommit h.1, (hkept h.1).1.trans h.2.1, h.2.2⟩
  | persisted purpose root =>
    exact ⟨hcommit h.1, (hkept h.1).1.trans h.2.1, (hkept h.1).2.trans h.2.2.1, h.2.2.2⟩

/-- A gate before and after a step of caller `i`, who takes it only when it is free and gives back only its own. -/
def Passes (i : Nat) (before after : Option Nat) : Prop := after = before ∨ before = none ∨ before = some i

theorem Passes.keeps {i j : Nat} {before after : Option Nat} (h : Passes i before after) (hj : j ≠ i)
    (hheld : before = some j) : after = some j := by
  rcases h with rfl | rfl | rfl
  · exact hheld
  · cases hheld
  · exact absurd (Option.some.inj hheld).symm hj

section Caller

variable {p' : LocalVersion R} {i : Nat} {t t' : Task R}

/-- **A step of caller `i`** that takes no gate from another caller. -/
theorem LocalInv.acts (h : LocalInv cfg first ms p) (htasks : p'.tasks = Function.update p.tasks i t')
    (hdisk : Numbered cfg first ms p'.disk) (hthreads : ∀ j ≠ i, p'.disk.threads j = p.disk.threads j)
    (hwrites : (p'.disk.threads i).writes = true → p'.request = some i ∧ t' = .idle)
    (hrequest : Passes i p.request p'.request) (hcommit : Passes i p.commit p'.commit)
    (hkept : p.commit = some i ∨ p'.disk.shared.tree.root = p.disk.shared.tree.root ∧ p'.head = p.head)
    (htask : TaskInv cfg first ms p' i t')
    (hcapturer : ∀ j ≠ i, p'.disk.capturer = some j → p.disk.capturer = some j)
    (hcapturing : p'.disk.capturer = some i → ∃ purpose, t' = .capturing purpose)
    (hhead : (∀ purpose root, t' ≠ .persisted purpose root) →
      (∀ j ≠ i, ∀ purpose root, p.tasks j ≠ .persisted purpose root) →
      ∃ m, Shows first ms p'.headGeneration (cfg.denotes p'.head) m) : LocalInv cfg first ms p' := by
  -- the others keep their gates, and under their gate head and root are as before
  have hself : p'.tasks i = t' := by rw [htasks, Function.update_self]
  have hothers : ∀ j ≠ i, p'.tasks j = p.tasks j := fun j hj => by rw [htasks, Function.update_of_ne hj]
  refine ⟨hdisk, fun j hj => ?_, fun j => ?_, fun j hj => ?_, fun hnone => ?_⟩
  · by_cases heq : j = i
    · subst heq
      exact (hwrites hj).imp_right hself.trans
    · rw [hthreads j heq] at hj
      exact (h.gate j hj).imp (hrequest.keeps heq) (hothers j heq).trans
  · by_cases heq : j = i
    · subst heq
      rw [hself]
      exact htask
    · rw [hothers j heq]
      refine (h.task j).mono (hrequest.keeps heq) (hcommit.keeps heq) (by rw [hthreads j heq]) fun hheld => ?_
      exact hkept.resolve_left fun hmine => heq (Option.some.inj (hheld.symm.trans hmine))
  · by_cases heq : j = i
    · subst heq
      exact (hcapturing hj).imp fun _ => hself.trans
    · exact (h.capturer j (hcapturer j heq hj)).imp fun _ => (hothers j heq).trans
  · refine hhead (fun purpose root heq => hnone i purpose root (hself.trans heq)) fun j hj purpose root heq => ?_
    exact hnone j purpose root ((hothers j hj).trans heq)

/-- The numbers of the head stay when the acting caller was not about to set them. -/
theorem LocalInv.keepHead (h : LocalInv cfg first ms p) (hold : p.tasks i = t)
    (hpersisted : ∀ purpose root, t ≠ .persisted purpose root)
    (hothers : ∀ j ≠ i, ∀ purpose root, p.tasks j ≠ .persisted purpose root) :
    ∃ m, Shows first ms p.headGeneration (cfg.denotes p.head) m := by
  refine h.head fun j purpose root => ?_
  by_cases hj : j = i
  · rw [hj, hold]
    exact hpersisted purpose root
  · exact hothers j hj purpose root

/-- Only a caller without a task writes. -/
theorem LocalInv.idle_of_writes (h : LocalInv cfg first ms p) (hold : p.tasks i = t)
    (hw : (p.disk.threads i).writes = true) : t = .idle := hold.symm.trans (h.gate i hw).2

theorem LocalInv.capturing_of_capturer (h : LocalInv cfg first ms p) (hold : p.tasks i = t)
    (hc : p.disk.capturer = some i) : ∃ purpose, t = .capturing purpose :=
  (h.capturer i hc).imp fun _ => hold.symm.trans

/-- **Gates**: a caller that only takes or gives back gates. -/
theorem LocalInv.regates (h : LocalInv cfg first ms p) (hold : p.tasks i = t) {request commit : Option Nat}
    (hpersisted : ∀ purpose root, t ≠ .persisted purpose root)
    (hwrites : t = .idle → (p.disk.threads i).writes = true → request = some i ∧ t' = .idle)
    (hrequest : Passes i p.request request) (hcommit : Passes i p.commit commit)
    (htask : TaskInv cfg first ms { p.goes i t' with request, commit } i t')
    (hcapturing : ∀ purpose, t = .capturing purpose → ∃ purpose, t' = .capturing purpose) :
    LocalInv cfg first ms { p.goes i t' with request, commit } :=
  h.acts rfl h.disk (fun _ _ => rfl) (fun hw => hwrites (h.idle_of_writes hold hw) hw) hrequest hcommit
    (.inr ⟨rfl, rfl⟩) htask (fun _ _ => id)
    (fun hc => (h.capturing_of_capturer hold hc).elim hcapturing) fun _ => h.keepHead hold hpersisted

/-- **The end of a capture**: the capture mutex is free again, and the commit mutex may be. -/
theorem LocalInv.ends (h : LocalInv cfg first ms p) {purpose : Purpose} (hold : p.tasks i = .capturing purpose)
    {d : WritableVersion R} {request commit : Option Nat}
    (hdisk : Numbered cfg first ms { p.disk.move i .idle d with capturer := none })
    (hrequest : Passes i p.request request) (htask : TaskInv cfg first ms
      { p.goes i t' with disk := { p.disk.move i .idle d with capturer := none }, request, commit } i t') :
    LocalInv cfg first ms
      { p.goes i t' with disk := { p.disk.move i .idle d with capturer := none }, request, commit } := by
  have hmine : p.commit = some i := (hold ▸ h.task i : TaskInv cfg first ms p i (.capturing purpose)).1
  refine h.acts rfl hdisk (fun j hj => Function.update_of_ne hj _ _) (fun hw => ?_) hrequest (.inr (.inr hmine))
    (.inl hmine) htask (fun _ _ hc => by cases hc) (fun hc => by cases hc) fun _ => h.keepHead hold (by simp)
  rw [show (System.move p.disk i .idle d).threads i = .idle from System.threads_move_self ..] at hw
  cases hw

/-- **The head**: the holder of the commit mutex, with nothing left to capture, sets it or its generation. -/
theorem LocalInv.heads (h : LocalInv cfg first ms p) (hold : p.tasks i = t) (hidle : t ≠ .idle)
    (hcapturing : ∀ purpose, t ≠ .capturing purpose) (hmine : p.commit = some i) {commit : Option Nat} {head : R}
    {headGeneration : Nat} (htask : TaskInv cfg first ms { p.goes i t' with commit, head, headGeneration } i t')
    (hhead : (∀ purpose root, t' ≠ .persisted purpose root) →
      ∃ m, Shows first ms headGeneration (cfg.denotes head) m) :
    LocalInv cfg first ms { p.goes i t' with commit, head, headGeneration } :=
  h.acts rfl h.disk (fun _ _ => rfl) (fun hw => absurd (h.idle_of_writes hold hw) hidle) (.inl rfl)
    (.inr (.inr hmine)) (.inl hmine) htask (fun _ _ => id)
    (fun hc => (h.capturing_of_capturer hold hc).elim fun purpose hp => absurd hp (hcapturing purpose))
    fun hne _ => hhead hne

end Caller

def LocalLabel.mutation : LocalLabel R → Option (Nat × Bytes)
  | .disk l => l.mutation
  | _ => none

/-- A batch is in the hands of the holder of the capture mutex. -/
theorem Inv.capturer_of_batch {s : System R} (h : Inv cfg s) {j : Nat} {b : Changes × Nat}
    (hb : (s.threads j).batch = some b) : s.capturer = some j := by
  have hthread := h.thread j
  cases ht : s.threads j <;> rw [ht] at hb hthread <;> simp only [Thread.batch, reduceCtorEq] at hb
  · exact hthread.1
  · exact hthread.1

/-- A mutation happens while no capture is between its sample and its cut. -/
theorem TaskInv.extend {p' : LocalVersion R} {j : Nat} {t : Task R} (h : TaskInv cfg first ms p j t)
    (hwriter : p.request ≠ some j ∨ t = .idle) (m : Nat × Bytes)
    (hcommit : p'.commit = p.commit) (hbatch : (p'.disk.threads j).batch = (p.disk.threads j).batch)
    (hroot : p'.disk.shared.tree.root = p.disk.shared.tree.root) (hhead : p'.head = p.head) :
    TaskInv cfg first (ms ++ [m]) p' j t := by
  rcases hwriter with hgate | rfl
  swap
  · trivial
  cases t with
  | idle => trivial
  | gated => exact absurd h hgate
  | locked => exact absurd h.1 hgate
  | capturing purpose =>
    refine ⟨hcommit.trans h.1, fun g hg => ⟨fun hnone => ?_, fun frozen at' hsome => ?_⟩⟩
    · exact absurd ((h.2 g hg).1 (hbatch ▸ hnone)).1 hgate
    · exact (h.2 g hg).2 frozen at' (hbatch ▸ hsome)
  | captured purpose root =>
    exact ⟨hcommit.trans h.1, hroot.trans h.2.1, fun g hg => (h.2.2 g hg).imp fun _ hm => hm.extend _⟩
  | persisted purpose root =>
    exact ⟨hcommit.trans h.1, hroot.trans h.2.1, hhead.trans h.2.2.1,
      fun g hg => (h.2.2.2 g hg).imp fun _ hm => hm.extend _⟩

/-- **A step inside the version.** -/
theorem LocalInv.inner (h : LocalInv cfg first ms p) {l : Label} {s : System R} (hstep : Step cfg p.disk l s)
    (hcapturer : s.capturer = p.disk.capturer)
    (hgate : ∀ j, (s.threads j).writes → p.request = some j ∧ p.tasks j = .idle) :
    LocalInv cfg first (ms ++ l.mutation.toList) { p with disk := s } := by
  refine ⟨h.disk.moved hstep hcapturer, hgate, fun j => ?_, fun j hj => h.capturer j (hcapturer ▸ hj),
    fun hnone => (h.head hnone).imp fun _ hm => hm.extend _⟩
  have htask := h.task j
  cases step_moved h.disk.inv hstep hcapturer with
  | quiet hl hshared hbatch =>
    rw [hl, Option.toList_none, List.append_nil]
    refine htask.mono id id (hbatch j) fun _ => ⟨?_, rfl⟩
    show s.shared.tree.root = _
    rw [hshared]
  | mutates i m hl hwrites hgeneration hdirty hroot htree hbatch =>
    rw [hl]
    refine htask.extend ?_ m rfl (hbatch j) (congrArg Handle.root htree) rfl
    -- the writer holds the gate, so a task that holds it is the writer's
    obtain ⟨hheld, hidle⟩ := h.gate i hwrites
    by_cases hj : i = j
    · exact .inr (hj ▸ hidle)
    · exact .inl fun heq => hj (Option.some.inj (hheld.symm.trans heq))
  | freezes i hl hi hdirty hshared hthreads =>
    rw [hl, Option.toList_none, List.append_nil]
    have htree : s.shared.tree.root = p.disk.shared.tree.root := by rw [hshared]
    by_cases hj : j = i
    · -- the sampled generation is that of the cut
      subst hj
      obtain ⟨purpose, hp⟩ := h.capturer j (h.disk.inv.at hi).1
      rw [hp] at htask ⊢
      refine ⟨htask.1, fun g hg => ?_⟩
      obtain ⟨-, hnow⟩ := (htask.2 g hg).1 (by rw [hi]; rfl)
      show ((s.threads j).batch = none → _) ∧ ∀ frozen at', (s.threads j).batch = some (frozen, at') → at' = g
      rw [hthreads, Function.update_self]
      refine ⟨nofun, fun frozen at' hsome => ?_⟩
      cases hsome
      rw [hnow]
      exact h.disk.generation
    · refine htask.mono id id ?_ fun _ => ⟨htree, rfl⟩
      show (s.threads j).batch = _
      rw [hthreads, Function.update_of_ne hj]

/-- The request gate at a cut is that of the capturing caller, or stays. -/
theorem LocalInv.passes_cutGate (h : LocalInv cfg first ms p) {i : Nat} {purpose : Purpose}
    (htask : p.tasks i = .capturing purpose) (hthread : p.disk.threads i = .cutting) :
    Passes i p.request (p.cutGate purpose) := by
  cases purpose with
  | flush => exact .inl rfl
  | capture g =>
    have htaskInv := h.task i
    rw [htask] at htaskInv
    exact .inr (.inr ((htaskInv.2 g rfl).1 (by rw [hthread]; rfl)).1)

/-- A capture that ended before its cut. -/
theorem Numbered.ended {s : System R} {i : Nat} {d : WritableVersion R} (h : Numbered cfg first ms s)
    (hi : s.threads i = .cutting) (hstep : Step cfg s .internal { s.move i .idle d with capturer := none })
    (hd : OnlySink s.shared d) :
    Numbered cfg first ms { s.move i .idle d with capturer := none } :=
  h.handover (step_content h.inv hstep).1 hd (batch_update hi rfl)

/-- **One step** of a local version keeps the numbering, and a capture it returns is numbered too. -/
theorem local_step {l : LocalLabel R} {p' : LocalVersion R} (h : LocalInv cfg first ms p)
    (hstep : LocalStep cfg p l p') :
    LocalInv cfg first (ms ++ l.mutation.toList) p'
      ∧ ∀ root g, l = .capture root g → ∃ m, Shows first ms g (cfg.denotes root) m := by
  -- only `inner` has a mutation, and only two steps return a capture
  have hsilent : LocalInv cfg first ms p' → l = .silent → LocalInv cfg first (ms ++ l.mutation.toList) p'
      ∧ ∀ root g, l = .capture root g → ∃ m, Shows first ms g (cfg.denotes root) m := by
    rintro hnext rfl
    refine ⟨?_, nofun⟩
    rw [show (LocalLabel.silent : LocalLabel R).mutation.toList = [] from rfl, List.append_nil]
    exact hnext
  have htaskOf : ∀ {i : Nat} {t : Task R}, p.tasks i = t → TaskInv cfg first ms p i t := fun heq =>
    heq ▸ h.task _
  have hsame : ∀ {i : Nat} {t : Task R}, p.tasks i = t → p.goes i t = p := fun heq => by
    rw [LocalVersion.goes, ← heq, Function.update_eq_self]
  cases hstep with
  | inner hstep hcapturer hgate => exact ⟨h.inner hstep hcapturer hgate, nofun⟩
  | @opensGate i hfree hidle =>
    have hnext : LocalInv cfg first ms { p.goes i .idle with request := some i } :=
      h.regates hidle (by simp) (fun _ _ => ⟨rfl, rfl⟩) (.inr (.inl hfree)) (.inl rfl) trivial (by simp)
    rw [hsame hidle] at hnext
    exact hsilent hnext rfl
  | @leavesGate i hheld hidle hwrites =>
    have hnext : LocalInv cfg first ms { p.goes i .idle with request := none } :=
      h.regates hidle (by simp) (fun _ hw => absurd hw (by simp [hwrites])) (.inr (.inr hheld)) (.inl rfl) trivial
        (by simp)
    rw [hsame hidle] at hnext
    exact hsilent hnext rfl
  | captureGated hfree hidle =>
    exact hsilent (h.regates hidle (by simp) (fun _ hw => absurd (h.gate _ hw).1 (by simp [hfree]))
      (.inr (.inl hfree)) (.inl rfl) rfl (by simp)) rfl
  | captureBusy htask hheld =>
    exact hsilent (h.regates htask (by simp) (by simp) (.inr (.inr (htaskOf htask))) (.inl rfl) trivial
      (by simp)) rfl
  | captureLocked htask hfree =>
    exact hsilent (h.regates htask (by simp) (by simp) (.inl rfl) (.inr (.inl hfree)) ⟨htaskOf htask, rfl⟩
      (by simp)) rfl
  | captureSampled htask =>
    obtain ⟨hmine, hcommit⟩ := htaskOf htask
    refine hsilent (h.regates htask (by simp) (by simp) (.inl rfl) (.inl rfl) ⟨hcommit, ?_⟩ (by simp)) rfl
    rintro g ⟨⟩
    refine ⟨fun _ => ⟨hmine, h.disk.generation⟩, fun frozen at' hsome => ?_⟩
    obtain ⟨purpose, hp⟩ := h.capturing_of_capturer htask (h.disk.inv.capturer_of_batch hsome)
    cases hp
  | flushLocked hidle hwrites hfree =>
    exact hsilent (h.regates hidle (by simp) (fun _ hw => absurd hw (by simp [hwrites])) (.inl rfl)
      (.inr (.inl hfree)) ⟨rfl, nofun⟩ fun _ _ => ⟨_, rfl⟩) rfl
  | @boundaryBegins i purpose htask hidle hfree =>
    have hinv := (step_content h.disk.inv (.captureLocked hidle hfree)).1
    have hbatch : (Function.update p.disk.threads i .cutting i).batch = (p.disk.threads i).batch :=
      batch_update hidle (show (Thread.cutting : Thread R).batch = Thread.batch .idle from rfl) i
    refine hsilent (h.acts (congrArg LocalVersion.tasks (hsame htask)).symm (h.disk.handover hinv rfl (batch_update hidle rfl))
      (fun j hj => Function.update_of_ne hj _ _) (fun hw => ?_) (.inl rfl) (.inl rfl) (.inr ⟨rfl, rfl⟩)
      ((htaskOf htask).mono id id hbatch fun _ => ⟨rfl, rfl⟩)
      (fun j hj hc => absurd (Option.some.inj hc).symm hj) (fun _ => ⟨purpose, rfl⟩)
      fun _ => h.keepHead htask (by simp)) rfl
    rw [show (System.move p.disk i .cutting p.disk.shared).threads i = .cutting from System.threads_move_self ..]
      at hw
    cases hw
  | @boundaryCut i generation base frozen at' attempted htask hthread hheld =>
    have hcapturing := htaskOf htask
    have hbatch : (p.disk.threads i).batch ≠ none := by simp [hthread, Thread.batch]
    have hnext : LocalInv cfg first ms { p.goes i (.capturing (.capture generation)) with request := none } :=
      h.regates htask (by simp) (by simp) (.inr (.inr hheld)) (.inl rfl)
        ⟨hcapturing.1, fun g hg => ⟨fun hnone => absurd hnone hbatch, (hcapturing.2 g hg).2⟩⟩ (by simp)
    rw [hsame htask] at hnext
    exact hsilent hnext rfl
  | boundaryUnchanged htask hthread hrun =>
    obtain ⟨hd, hroot, hclean⟩ := cut_outcome.of_from hrun
    obtain ⟨hcommit, hcapture⟩ := htaskOf htask
    have hempty : p.disk.shared.frozen = ∅ := (h.disk.inv.at hthread).2
    refine hsilent (h.ends htask (h.disk.ended hthread (.captureUnchanged hthread hrun) hd)
      (h.passes_cutGate htask hthread) ⟨hcommit, ?_, fun g hg => ⟨ms.length, ?_⟩⟩) rfl
    · exact (congrArg (·.tree.root) hd).trans hroot.symm
    · obtain ⟨-, rfl⟩ := (hcapture g hg).1 (by rw [hthread]; rfl)
      rw [hroot, ← content_of_clean hclean hempty]
      show Shows first ms _ (p.disk.content cfg) _
      rw [h.disk.content]
      exact Shows.all first ms
  | boundaryRefused htask hthread hrun =>
    have hd : OnlySink p.disk.shared _ := cut_outcome.of_from hrun
    exact hsilent (h.ends htask (h.disk.ended hthread (.captureRefused hthread hrun) hd)
      (h.passes_cutGate htask hthread) trivial) rfl
  | boundaryMerged htask hthread hcut =>
    exact hsilent (h.ends htask (h.disk.merged hthread) (.inl rfl) trivial) rfl
  | boundaryInstalled htask hthread hcut =>
    obtain ⟨hcommit, hcapture⟩ := htaskOf htask
    obtain ⟨hnumbered, hshows⟩ := h.disk.installed hthread
    refine hsilent (h.ends htask hnumbered (.inl rfl) ⟨hcommit, rfl, fun g hg => ?_⟩) rfl
    obtain rfl := (hcapture g hg).2 _ _ (by rw [hthread]; rfl)
    exact hshows
  | persistFailed htask =>
    exact hsilent (h.regates htask (by simp) (by simp) (.inl rfl) (.inr (.inr (htaskOf htask).1)) trivial
      (by simp)) rfl
  | persists htask =>
    obtain ⟨hcommit, hroot, hcapture⟩ := htaskOf htask
    exact hsilent (h.heads htask (by simp) (by simp) hcommit ⟨hcommit, hroot, rfl, hcapture⟩
      fun hne => absurd rfl (hne _ _)) rfl
  | @returns i purpose root htask =>
    obtain ⟨hcommit, hroot, hhead, hcapture⟩ := htaskOf htask
    -- the head is the installed root, and takes its number
    have hshows : ∃ m, Shows first ms p.disk.shared.rootGeneration (cfg.denotes p.head) m := by
      obtain ⟨m, hm, -⟩ := h.disk.root
      exact ⟨m, by rwa [hhead, ← hroot]⟩
    have hnext : LocalInv cfg first ms
        { p.goes i .idle with headGeneration := p.disk.shared.rootGeneration, commit := none } :=
      h.heads htask (by simp) (by simp) hcommit trivial fun _ => hshows
    cases purpose with
    | flush => exact hsilent hnext rfl
    | capture g =>
      refine ⟨?_, ?_⟩
      · rw [show (LocalVersion.result root (.capture g)).mutation.toList = [] from rfl, List.append_nil]
        exact hnext
      · rintro root' g' ⟨⟩
        exact hcapture g rfl
  | pinCommitted hfree =>
    refine ⟨?_, ?_⟩
    · rw [show (LocalLabel.capture p.head p.headGeneration).mutation.toList = [] from rfl, List.append_nil]
      exact h
    · rintro root g ⟨⟩
      refine h.head fun i purpose root hpersisted => ?_
      have hcommit := (htaskOf hpersisted).1
      rw [hfree] at hcommit
      cases hcommit

/-- **A generation names a content.** After any interleaving of device writes and trims, flushes, captures that
fail or succeed and pins: a version with nothing dirty and nothing frozen has its generation as root generation;
and a capture returned here, by `Capture` or by `PinCommitted`, has the content of the opened root with exactly
the first `m` mutations applied, where its generation is `m` as a 64-bit counter counts it. -/
theorem capture_generation_exact (cfg : Config R) {root : R} {stagedBytes : Int} {trace : List (LocalLabel R)}
    (hrun : Run (LocalStep cfg) (LocalVersion.opened root stagedBytes) trace p) :
    (p.disk.shared.dirty.entries = [] → p.disk.shared.frozen.entries = [] →
      p.disk.shared.rootGeneration = p.disk.shared.generation)
    ∧ ∀ captured g p', LocalStep cfg p (.capture captured g) p' →
      ∃ m ≤ (trace.filterMap LocalLabel.mutation).length, g = m % 2 ^ 64
        ∧ cfg.denotes captured = applied (cfg.denotes root) ((trace.filterMap LocalLabel.mutation).take m)
        ∧ ((trace.filterMap LocalLabel.mutation).length < 2 ^ 64 → g = m) := by
  have h : LocalInv cfg (cfg.denotes root) (trace.filterMap LocalLabel.mutation) p := by
    refine hrun.along (fun trace p => LocalInv cfg (cfg.denotes root) (trace.filterMap LocalLabel.mutation) p)
      (fun trace t l u h hstep => ?_) (LocalInv.opened cfg root stagedBytes)
    have hnext := (local_step h hstep).1
    rwa [filterMap_snoc]
  refine ⟨fun hdirty hfrozen => ?_, fun captured g p' hstep => ?_⟩
  · obtain ⟨m, hm, hall⟩ := h.disk.root
    rw [hm.generation, hall hdirty hfrozen, h.disk.generation]
  · obtain ⟨m, hm⟩ := (local_step h hstep).2 captured g rfl
    refine ⟨m, hm.le, hm.generation, hm.content, fun hsmall => ?_⟩
    rw [hm.generation, Nat.mod_eq_of_lt (hm.le.trans_lt hsmall)]

end Invariants

/-- A device writes a block under the request gate, and nothing has been flushed. -/
def demoLocal : LocalVersion Unit := { LocalVersion.opened () 0 with request := some 0, disk := demoWritten }

theorem demoLocal_run : Run (LocalStep demoDisk) (LocalVersion.opened () 0)
    [.silent, .disk .internal, .disk (.writeReturned 0 0 (List.replicate 4096 7) (.ok 4096))] demoLocal := by
  have hfst : demoWrite.1 = .ok (.inl 4096) := by decide +kernel
  have hrun : demoWrite = (.ok (.inl 4096), demoWrite.2) := by rw [← hfst]
  have hcalled : Step demoDisk (System.opened () 0) .internal demoCalled := .writeCalled _ 0 rfl
  have hreturned : Step demoDisk demoCalled (.writeReturned 0 0 (List.replicate 4096 7) (.ok 4096)) demoWritten :=
    .writeFirstDone (System.threads_move_self ..) hrun
  have hopens := @LocalStep.opensGate Unit demoDisk (LocalVersion.opened () 0) 0 rfl rfl
  have hcalls := @LocalStep.inner Unit demoDisk { LocalVersion.opened () 0 with request := some 0 } _ _ hcalled rfl
    fun j hj => by
      by_cases h : j = 0
      · exact ⟨by rw [h], rfl⟩
      · rw [show demoCalled.threads j = .idle from Function.update_of_ne h _ _] at hj
        cases hj
  have hreturns := @LocalStep.inner Unit demoDisk
    { LocalVersion.opened () 0 with request := some 0, disk := demoCalled } _ _ hreturned rfl fun j hj => by
      by_cases h : j = 0
      · exact ⟨by rw [h], rfl⟩
      · rw [show demoWritten.threads j = demoCalled.threads j from Function.update_of_ne h _ _,
          show demoCalled.threads j = .idle from Function.update_of_ne h _ _] at hj
        cases hj
  exact ((Run.nil.snoc hopens).snoc hcalls).snoc hreturns

/-- A pin taken now certifies none of the mutation. -/
theorem capture_generation_exact_demo : ∃ m, 0 = m % 2 ^ 64
    ∧ demoDisk.denotes () = applied (demoDisk.denotes ()) ([(0, List.replicate 4096 7)].take m) := by
  obtain ⟨m, -, hg, hcontent, -⟩ :=
    (capture_generation_exact demoDisk demoLocal_run).2 () 0 demoLocal (.pinCommitted rfl)
  have hne : List.replicate 4096 (7 : UInt8) ≠ [] := fun h =>
    absurd (congrArg List.length h) (by rw [List.length_replicate]; decide)
  have hms : List.filterMap LocalLabel.mutation
      [(.silent : LocalLabel Unit), .disk .internal,
        .disk (.writeReturned 0 0 (List.replicate 4096 7) (.ok 4096))] = [(0, List.replicate 4096 7)] := by
    rw [List.filterMap_cons_none rfl, List.filterMap_cons_none rfl, List.filterMap_cons_some, List.filterMap_nil]
    exact (if_neg hne : (if _ then none else some _) = _)
  rw [hms] at hcontent
  exact ⟨m, hg, hcontent⟩

end Helmr.Disk
