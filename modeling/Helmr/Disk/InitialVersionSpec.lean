import Helmr.BlockFormat.Versions
import Helmr.Disk.InitialVersion

/-!
# Disk — an initial version is the file

`Holding pos s` is what holds between two blocks of a capture: the version made so far has the file's bytes below
`pos` where no change waits and zeros from `pos` on, and each waiting change points at the file's block in the
buffer. A block of zeros moves `pos` over bytes the version has already (`Holding.skip`); any other block moves to
the front of the buffer, behind the waiting ones and not beyond its own place (`Chunk.move`); a flush turns the
waiting blocks into the next version (`triple_flush`). `triple_keepBlock`, `triple_inspectChunk`, `triple_readChunk`
and `triple_readBatch` follow the nested loops outwards.

The walk is followed once, by `triple_walk`, for any property of a position: it crosses holes by itself and hands
every batch of blocks to its visitor, of which `Walks` asks for four things (`walks_visitBatch`).
-/

namespace Helmr.Disk

open Wire Wire.Json Fallible Hoare BlockFormat

/-! ## Statements -/

/-- The block has data of the file. -/
def SparseFile.Meets (disk : SparseFile) (b : Nat) : Prop :=
  ∃ p < disk.size, p / blockSize = b ∧ disk.isData p = true

/-- A batch visits a block. -/
def Covers (b : Nat) (batch : Nat × Nat) : Prop :=
  batch.1 ≤ b * blockSize ∧ b * blockSize < batch.1 + batch.2

instance (b : Nat) : DecidablePred (Covers b) := fun batch => by unfold Covers; infer_instance

/-- How many batches visit a block. -/
def visitCount (visits : List (Nat × Nat)) (b : Nat) : Nat := visits.countP fun batch => Covers b batch

/-- A batch of whole blocks, of at most 4 MiB. -/
def Batched (batch : Nat × Nat) : Prop :=
  blockSize ∣ batch.1 ∧ blockSize ∣ batch.2 ∧ 0 < batch.2 ∧ batch.2 ≤ 4194304

/-- The blocks of data below `pos` have been visited once, and nothing else has been visited. -/
structure Visited (disk : SparseFile) (pos : Nat) (visits : List (Nat × Nat)) : Prop where
  batched : ∀ batch ∈ visits, Batched batch
  once : ∀ b, disk.Meets b → b * blockSize < pos → visitCount visits b = 1
  never : ∀ b, ¬(disk.Meets b ∧ b * blockSize < pos) → visitCount visits b = 0

/-- A write stays in the buffer and off the blocks still to be inspected and those that wait. -/
structure BufferWrite.Safe (w : BufferWrite) : Prop where
  fits : w.dst + w.size ≤ bufferBytes
  unread : w.dst + w.size ≤ w.unread ∨ w.stop ≤ w.dst
  pending : ∀ p ∈ w.pending, p + blockSize ≤ w.dst ∨ w.dst + w.size ≤ p

/-- What holds after every call, failed or not. -/
structure Careful (V : List (Nat × Nat) → Prop) (s : InitialVersion) : Prop where
  visits : V s.visits
  writes : ∀ w ∈ s.writes, w.Safe
  stuck : s.stuck = false

/-! ## Arithmetic of blocks -/

theorem div_eq_iff_block {p b : Nat} : p / blockSize = b ↔ b * blockSize ≤ p ∧ p < b * blockSize + blockSize := by
  unfold blockSize
  omega

theorem dvd_roundUp (n : Nat) : blockSize ∣ roundUp n := by
  unfold roundUp blockSize
  split <;> omega

theorem le_roundUp (n : Nat) : n ≤ roundUp n ∧ roundUp n < n + blockSize := by
  unfold roundUp blockSize
  split <;> omega

/-! ## Extents -/

section Extents

variable {disk : SparseFile} {offset data : Nat}

theorem seekData_eq_none (h : disk.seekData offset = none) :
    ∀ p, offset ≤ p → p < disk.size → disk.isData p = false := by
  intro p hlo hhi
  have := List.find?_eq_none.mp h p (List.mem_range'_1.mpr ⟨hlo, by omega⟩)
  simpa using this

/-- What stands before the first match of a search in a range. -/
theorem find?_range'_eq_some {f : Nat → Bool} {n : Nat} (h : (List.range' offset n).find? f = some data) :
    offset ≤ data ∧ data < offset + n ∧ f data = true ∧ ∀ p, offset ≤ p → p < data → f p = false := by
  induction n generalizing offset with
  | zero => cases h
  | succ n ih =>
    rw [List.range'_succ, List.find?_cons] at h
    cases hf : f offset with
    | true =>
      rw [hf] at h
      cases h
      exact ⟨le_refl _, by omega, hf, fun p hlo hhi => by omega⟩
    | false =>
      rw [hf] at h
      obtain ⟨hlo, hhi, hdata, hbefore⟩ := ih h
      refine ⟨by omega, by omega, hdata, fun p hp hlt => ?_⟩
      by_cases hpo : p = offset
      · rw [hpo, hf]
      · exact hbefore p (by omega) hlt

theorem seekData_eq_some (h : disk.seekData offset = some data) :
    offset ≤ data ∧ data < disk.size ∧ disk.isData data = true
      ∧ ∀ p, offset ≤ p → p < data → disk.isData p = false := by
  obtain ⟨hlo, hhi, hdata, hbefore⟩ := find?_range'_eq_some h
  exact ⟨hlo, by omega, hdata, hbefore⟩

/-- A data extent is not empty, ends within the file, and has data throughout. -/
theorem seekHole_spec (hdata : disk.isData data = true) (hsize : data < disk.size) :
    data < disk.seekHole data ∧ disk.seekHole data ≤ disk.size
      ∧ ∀ p, data ≤ p → p < disk.seekHole data → disk.isData p = true := by
  unfold SparseFile.seekHole
  cases hfind : (List.range' data (disk.size - data)).find? fun p => !disk.isData p with
  | none =>
    refine ⟨hsize, le_refl _, fun p hlo hhi => ?_⟩
    have := List.find?_eq_none.mp hfind p (List.mem_range'_1.mpr ⟨hlo, by simp at hhi; omega⟩)
    simpa using this
  | some hole =>
    obtain ⟨hlo, hhi, hhole, hbefore⟩ := find?_range'_eq_some hfind
    have hne : data ≠ hole := by
      rintro rfl
      rw [hdata] at hhole
      cases hhole
    refine ⟨?_, ?_, fun p hp hlt => ?_⟩
    · simp only [Option.getD_some]
      omega
    · simp only [Option.getD_some]
      omega
    · simpa using hbefore p hp hlt

end Extents

/-! ## The walk -/

section Walk

variable {h : Host} {disk : SparseFile} {I : Nat → InitialVersion → Prop} {E : InitialVersion → Prop}
  {visit : Nat → Nat → Act Error InitialVersion Unit}

theorem triple_call {P E : InitialVersion → Prop} (hP : ∀ s n, P s → P { s with calls := n })
    (hE : ∀ s, P s → E s) : Triple (.trivial _) P h.call (fun _ => P) E :=
  Triple.effect (fun s _ _ heq hs => (Prod.mk.inj heq).2 ▸ hP s _ hs)
    fun s _ _ heq hs => hE _ ((Prod.mk.inj heq).2 ▸ hP s _ hs)

/-- What a visitor has to do for a property of positions to hold all along a walk. -/
structure Walks (disk : SparseFile) (I : Nat → InitialVersion → Prop) (E : InitialVersion → Prop)
    (visit : Nat → Nat → Act Error InitialVersion Unit) : Prop where
  call : ∀ pos s n, I pos s → I pos { s with calls := n }
  fail : ∀ pos s, I pos s → E s
  skip : ∀ pos pos' s, I pos s → pos ≤ pos' → blockSize ∣ pos' →
    (∀ p, pos ≤ p → p < pos' → disk.isData p = false) → I pos' s
  visit : ∀ start size, Batched (start, size) → start + size ≤ disk.size →
    (∀ b, Covers b (start, size) → disk.Meets b) →
      Triple (.trivial _) (I start) (visit start size) (fun _ => I (start + size)) E

theorem triple_walkBatches (hwalk : Walks disk I E visit) {stop : Nat} (hstop : blockSize ∣ stop)
    (hsize : stop ≤ disk.size) : ∀ fuel start, blockSize ∣ start → start ≤ stop → stop - start < fuel →
      (∀ b, start ≤ b * blockSize → b * blockSize < stop → disk.Meets b) →
      Triple (.trivial _) (I start) (walkBatches h visit stop fuel start) (fun _ => I stop) E := by
  intro fuel
  induction fuel with
  | zero => intro start _ _ hfuel; omega
  | succ fuel ih =>
    intro start hstart hle hfuel hmeets
    unfold walkBatches
    refine Triple.ite (fun hlt => ?_) fun hge => ?_
    · have hbatch : Batched (start, min batchBytes (stop - start)) := by
        unfold Batched batchBytes maxChangedBlocks maxRecords blockSize at *
        omega
      have hdvd := hbatch.2.1
      have hpos := hbatch.2.2.1
      refine Triple.bind (triple_call (hwalk.call start) (hwalk.fail start)) fun _ => ?_
      refine Triple.bind (hwalk.visit start _ hbatch (by omega) fun b hb => ?_) fun _ => ?_
      · exact hmeets b hb.1 (hb.2.trans_le (by simp only; omega))
      · refine ih _ (hstart.add hdvd) (by omega) (by omega) fun b hb => hmeets b (by omega)
    · have heq : start = stop := by omega
      exact Triple.pure fun s _ hs => heq ▸ hs

/-- **A walk crosses the file.** What a visitor keeps from batch to batch holds at the end of the file when the
walk returns, and no walk runs out of fuel. -/
theorem triple_walk (hwalk : Walks disk I E visit) (hdisk : blockSize ∣ disk.size) :
    ∀ fuel offset, blockSize ∣ offset → offset ≤ disk.size → disk.size - offset < fuel →
      Triple (.trivial _) (I offset) (walkInitialDiskData h disk disk.size visit fuel offset)
        (fun _ => I disk.size) E := by
  intro fuel
  induction fuel with
  | zero => intro offset _ _ hfuel; omega
  | succ fuel ih =>
    intro offset hoffset hle hfuel
    have hcall (pos : Nat) := triple_call (h := h) (hwalk.call pos) (hwalk.fail pos)
    unfold walkInitialDiskData
    refine Triple.ite (fun hlt => ?_) fun hge => ?_
    · refine (hcall offset).bind fun _ => (hcall offset).bind fun _ => ?_
      cases hseek : disk.seekData offset with
      | none =>
        exact Triple.pure fun s _ hs => hwalk.skip offset disk.size s hs hle hdisk (seekData_eq_none hseek)
      | some data =>
        obtain ⟨hlo, hhi, hdata, hbefore⟩ := seekData_eq_some hseek
        obtain ⟨hdh, hhs, hthrough⟩ := seekHole_spec hdata hhi
        have hround := le_roundUp (disk.seekHole data)
        have hdvd := dvd_roundUp (disk.seekHole data)
        -- a block of the rounded extent has a byte of the extent itself
        have hmeets : ∀ b, data - data % blockSize ≤ b * blockSize → b * blockSize < roundUp (disk.seekHole data) →
            disk.Meets b := by
          intro b hb hb'
          refine ⟨max data (b * blockSize), ?_, ?_, hthrough _ (le_max_left _ _) ?_⟩ <;>
            unfold blockSize at * <;> omega
        have hfirst : blockSize ∣ data - data % blockSize := Nat.dvd_sub_mod data
        simp only
        refine Triple.attempt_bind (fun s hs => hwalk.fail _ s hs) fun _ _ => (hcall offset).bind fun _ =>
          Triple.attempt_bind (fun s hs => hwalk.fail _ s hs) fun _ _ => ?_
        have hstart : offset ≤ data - data % blockSize := by unfold blockSize at *; omega
        have hend : roundUp (disk.seekHole data) ≤ disk.size := by unfold blockSize at *; omega
        refine Triple.bind (Triple.pre (triple_walkBatches hwalk hdvd hend _ _ hfirst (by omega) (by omega) hmeets)
          fun s hs => ?_) fun _ => ih _ hdvd hend (by omega)
        exact hwalk.skip offset _ s hs hstart hfirst fun p hp hp' => hbefore p hp (by omega)
    · have heq : offset = disk.size := by omega
      rw [heq]
      exact hcall disk.size

end Walk

/-! ## What is visited -/

theorem visitCount_snoc (visits : List (Nat × Nat)) (batch : Nat × Nat) (b : Nat) :
    visitCount (visits ++ [batch]) b = visitCount visits b + if Covers b batch then 1 else 0 := by
  simp [visitCount, List.countP_append, List.countP_cons]

section Visits

variable {disk : SparseFile} {visits : List (Nat × Nat)} {pos : Nat}

theorem Visited.start : Visited disk 0 [] where
  batched batch hbatch := by cases hbatch
  once b _ hlt := by omega
  never b _ := rfl

/-- Holes have no block to visit. -/
theorem Visited.skip {pos' : Nat} (hv : Visited disk pos visits) (hle : pos ≤ pos')
    (hpos' : blockSize ∣ pos') (hholes : ∀ p, pos ≤ p → p < pos' → disk.isData p = false) : Visited disk pos' visits := by
  have hback : ∀ b, disk.Meets b → b * blockSize < pos' → b * blockSize < pos := by
    rintro b ⟨p, -, hdiv, hdata⟩ hlt
    by_contra hge
    rw [div_eq_iff_block] at hdiv
    have : disk.isData p = false := hholes p (by omega) (by unfold blockSize at *; omega)
    rw [this] at hdata
    cases hdata
  exact ⟨hv.batched, fun b hb hlt => hv.once b hb (hback b hb hlt),
    fun b hb => hv.never b fun hlt => hb ⟨hlt.1, by omega⟩⟩

theorem Visited.visit {size : Nat} (hv : Visited disk pos visits) (hbatch : Batched (pos, size))
    (hmeets : ∀ b, Covers b (pos, size) → disk.Meets b) : Visited disk (pos + size) (visits ++ [(pos, size)]) where
  batched batch hmem := by
    rcases List.mem_append.mp hmem with hmem | hmem
    · exact hv.batched batch hmem
    · rw [List.mem_singleton.mp hmem]
      exact hbatch
  once b hb hlt := by
    rw [visitCount_snoc]
    by_cases hold : b * blockSize < pos
    · rw [hv.once b hb hold, if_neg fun hc => absurd hc.1 (by simp only; omega)]
    · rw [hv.never b fun hc => hold hc.2, if_pos ⟨by simp only; omega, hlt⟩]
  never b hb := by
    have hnot : ¬Covers b (pos, size) := fun hc => hb ⟨hmeets b hc, hc.2⟩
    rw [visitCount_snoc, if_neg hnot, hv.never b fun hc => hb ⟨hc.1, by omega⟩]

end Visits

/-! ## The writer -/

section Writer

variable {h : Host} {request : VersionCapture}

instance mirrors_call : Mirrors InitialVersion.staging h.call (pure () : Act Error Staging Unit) where
  mirrors s a s' hrun := by
    have hs : { s with calls := s.calls + 1 } = s' := congrArg Prod.snd hrun
    rw [← hs]
    rfl

theorem mirrors_storeObject (cfg : WriterConfig) (digest : Digest) (raw : Bytes) :
    Mirrors InitialVersion.staging (h.storeObject digest raw)
      ((stagingWriter h.rand cfg).storeObject digest raw) where
  mirrors s a s' hrun := by
    obtain ⟨_, t, hbudget, hrest⟩ := from_bind_ok hrun
    obtain ⟨_, u, hcall, hstore⟩ := from_bind_ok hrest
    have ht : s = t := congrArg Prod.snd hbudget
    have hu := mirrors_call.mirrors t () u hcall
    have hst : t.staging = u.staging := congrArg Prod.snd hu
    cases hstore
    rw [ht, hst]
    rfl

theorem mirrors_randomSalt (cfg : WriterConfig) :
    Mirrors InitialVersion.staging h.randomSalt (stagingWriter h.rand cfg).randomSalt where
  mirrors s a s' hrun := by
    obtain ⟨_, u, hcall, hdraw⟩ := from_bind_ok hrun
    have hst : s.staging = u.staging := congrArg Prod.snd (mirrors_call.mirrors s () u hcall)
    cases hdraw
    rw [hst]
    rfl

/-- What a call of the writer leaves alone. -/
def untouched : Ambient InitialVersion where
  le s t := t.root = s.root ∧ t.buffer = s.buffer ∧ t.changes = s.changes ∧ t.visits = s.visits
    ∧ t.writes = s.writes ∧ t.stuck = s.stuck
  refl _ := ⟨rfl, rfl, rfl, rfl, rfl, rfl⟩
  trans hab hbc := ⟨hbc.1.trans hab.1, hbc.2.1.trans hab.2.1, hbc.2.2.1.trans hab.2.2.1,
    hbc.2.2.2.1.trans hab.2.2.2.1, hbc.2.2.2.2.1.trans hab.2.2.2.2.1, hbc.2.2.2.2.2.trans hab.2.2.2.2.2⟩
  holds _ := True
  earlier _ ht := ht

instance untouched_call : Grows untouched h.call := ⟨fun s => untouched.refl s⟩

instance untouched_storeObject (digest : Digest) (raw : Bytes) :
    Grows untouched ((h.writer request).storeObject digest raw) := by
  have hstore : Grows untouched (effect fun s : InitialVersion => ((.ok () : Result Unit), { s with
      staging := { s.staging with objects := s.staging.objects ++ [(digest, raw)] }
      objects := s.objects - 1
      remaining := s.remaining - raw.length })) := ⟨fun s => untouched.refl s⟩
  show Grows untouched (h.storeObject digest raw)
  unfold Host.storeObject
  infer_instance

instance untouched_randomSalt : Grows untouched (h.writer request).randomSalt := by
  have hdraw : Grows untouched (effect fun s : InitialVersion => ((.ok (h.rand s.staging.drawn) : Result Digest),
      { s with staging := { s.staging with drawn := s.staging.drawn + 1 } })) := ⟨fun s => untouched.refl s⟩
  show Grows untouched h.randomSalt
  unfold Host.randomSalt
  infer_instance

variable (C : Crypto)

theorem capture_mirrors (base : Locator) (changes : Changes) :
    Mirrors InitialVersion.staging ((h.writer request).capture C base request.capacity changes)
      ((stagingWriter h.rand request.config).capture C base request.capacity changes) := by
  have := mirrors_storeObject (h := h) request.config
  have := mirrors_randomSalt (h := h) request.config
  exact mirrors_capture C base request.capacity changes

theorem empty_mirrors :
    Mirrors InitialVersion.staging ((h.writer request).empty C request.capacity request.fanout)
      ((stagingWriter h.rand request.config).empty C request.capacity request.fanout) := by
  have := mirrors_storeObject (h := h) request.config
  have := mirrors_randomSalt (h := h) request.config
  exact mirrors_empty C request.capacity request.fanout

/-- A call of the writer, seen from the plain store and from the rest of the candidate. -/
theorem triple_writer {x : Act Error InitialVersion Locator} {y : Act Error Staging Locator}
    (hxy : Mirrors InitialVersion.staging x y) [hx : Grows untouched x] (s : InitialVersion) :
    Triple (.trivial _) (fun t => t = s) x
      (fun l t => Act.from y s.staging = (.ok l, t.staging) ∧ untouched.le s t) (fun t => untouched.le s t) := by
  have hgrows := hx.grows s
  refine Triple.intro (fun t l t' hrun _ ht => ?_) fun t e t' hrun _ ht => ?_
  · rw [ht] at hrun
    rw [hrun] at hgrows
    exact ⟨hxy.mirrors s l t' hrun, hgrows⟩
  · rw [ht] at hrun
    rw [hrun] at hgrows
    exact hgrows

end Writer

/-! ## Blocks -/

section States

variable (C : Crypto) (rand : Nat → Digest) (request : VersionCapture) (ok : Bytes → Prop) (disk : SparseFile)
  (V : List (Nat × Nat) → Prop)

/-- What holds between two blocks, with everything below `pos` inspected. -/
structure Holding (pos : Nat) (s : InitialVersion) : Prop extends Careful V s where
  placed : ∀ b at_, s.changes.lookup b = some at_ → b * blockSize + blockSize ≤ pos
    ∧ at_ + blockSize ≤ s.changes.entries.length * blockSize
    ∧ window s.buffer at_ blockSize = window disk.content (b * blockSize) blockSize
  version : ∃ hist a, Reaches C rand request.scope request.keys ok s.staging hist ∧ (s.root, a) ∈ hist
    ∧ a.capacity = request.capacity
    ∧ (∀ q < pos, s.changes.lookup (q / blockSize) = none → a.content q = disk.content q)
    ∧ ∀ q, pos ≤ q → a.content q = 0

/-- The blocks of a chunk from `i` on are in the buffer as they were read, behind those that wait. -/
structure Chunk (start n offset i : Nat) (s : InitialVersion) : Prop extends
    Holding C rand request ok disk V (offset + i) s where
  few : s.changes.entries.length < maxChangedBlocks
  behind : s.changes.entries.length * blockSize ≤ start + i
  unread : ∀ j, i ≤ j → j < n → s.buffer (start + j) = disk.content (offset + j)

/-- Between two chunks there is room in the buffer. -/
structure Roomy (pos : Nat) (s : InitialVersion) : Prop extends Holding C rand request ok disk V pos s where
  few : s.changes.entries.length < maxChangedBlocks

/-- The walk is over, and no block is left to stage. -/
abbrev Finished (s : InitialVersion) : Prop :=
  Holding C rand request ok disk (Visited disk disk.size) disk.size s ∧ s.changes.entries.length = 0
    ∧ (disk.size : Int) = request.capacity

end States

section Blocks

variable {C : Crypto} {h : Host} {request : VersionCapture} {ok : Bytes → Prop} {disk : SparseFile}
  {V : List (Nat × Nat) → Prop} {pos : Nat} {s : InitialVersion}

theorem Holding.call (hs : Holding C h.rand request ok disk V pos s) (n : Nat) :
    Holding C h.rand request ok disk V pos { s with calls := n } :=
  ⟨⟨hs.visits, hs.writes, hs.stuck⟩, hs.placed, hs.version⟩

/-- Bytes that are zero need not be captured. -/
theorem Holding.skip {pos' : Nat} (hs : Holding C h.rand request ok disk V pos s) (hle : pos ≤ pos')
    (hzero : ∀ q, pos ≤ q → q < pos' → disk.content q = 0) : Holding C h.rand request ok disk V pos' s := by
  obtain ⟨hist, a, hreach, hmem, hcap, hbelow, habove⟩ := hs.version
  refine ⟨hs.toCareful, fun b at_ hb => ?_, hist, a, hreach, hmem, hcap, fun q hq hnone => ?_,
    fun q hq => habove q (hle.trans hq)⟩
  · obtain ⟨hpos, hrest⟩ := hs.placed b at_ hb
    exact ⟨hpos.trans hle, hrest⟩
  · by_cases hlt : q < pos
    · exact hbelow q hlt hnone
    · rw [habove q (by omega), hzero q (by omega) hq]

theorem lookup_pending (s : InitialVersion) (b : Nat) :
    s.pending.lookup b = (s.changes.lookup b).map fun at_ => window s.buffer at_ blockSize :=
  List.dlookup_map₂ b

theorem length_pending (s : InitialVersion) : s.pending.entries.length = s.changes.entries.length :=
  List.length_map _

/-- The version with the waiting blocks written over it. -/
theorem Holding.overlay (hs : Holding C h.rand request ok disk V pos s) {c : Content}
    (hbelow : ∀ q < pos, s.changes.lookup (q / blockSize) = none → c q = disk.content q)
    (habove : ∀ q, pos ≤ q → c q = 0) :
    (∀ q < pos, overlay s.pending c q = disk.content q) ∧ ∀ q, pos ≤ q → overlay s.pending c q = 0 := by
  refine ⟨fun q hq => ?_, fun q hq => ?_⟩
  · cases hlook : s.changes.lookup (q / blockSize) with
    | none => simp only [BlockFormat.overlay, lookup_pending, hlook, Option.map_none, hbelow q hq hlook]
    | some at_ =>
      obtain ⟨-, -, hblock⟩ := hs.placed _ _ hlook
      have hmod : q % blockSize < blockSize := Nat.mod_lt _ (by decide)
      have hsplit : q / blockSize * blockSize + q % blockSize = q := Nat.div_add_mod' q blockSize
      simp only [BlockFormat.overlay, lookup_pending, hlook, Option.map_some, hblock, List.getD_eq_getElem?_getD,
        getElem?_window _ _ hmod, Option.getD_some, hsplit]
  · cases hlook : s.changes.lookup (q / blockSize) with
    | none => simp only [BlockFormat.overlay, lookup_pending, hlook, Option.map_none, habove q hq]
    | some at_ =>
      have := (hs.placed _ _ hlook).1
      unfold blockSize at *
      omega

/-- **A flush makes the waiting blocks part of the version.** -/
theorem triple_flush (hkey : ok request.keyId) (disk : SparseFile) (pos : Nat) (B : Content → Prop) :
    Triple (.trivial _) (fun s => Holding C h.rand request ok disk V pos s ∧ B s.buffer) (flush h C request)
      (fun _ s => Holding C h.rand request ok disk V pos s ∧ s.changes.entries.length = 0 ∧ B s.buffer)
      (Careful V) := by
  refine Triple.of_pre fun s _ hs => ?_
  obtain ⟨hs, hbuffer⟩ := hs
  unfold flush
  refine Triple.reads_bind hs.toCareful fun changes hchanges => ?_
  cases hchanges
  refine Triple.ite (fun hnone => Triple.pure fun t _ ht => ?_) fun hsome => ?_
  · rw [ht]
    exact ⟨hs, length_pending s ▸ hnone, hbuffer⟩
  · refine Triple.reads_bind hs.toCareful fun base hbase => ?_
    cases hbase
    refine Triple.bind ((triple_writer (capture_mirrors C s.root s.pending) s).conseq (fun _ ht => ht)
      (fun _ _ ht => ht) fun t ht => ?_) fun l => Triple.effect (fun t _ t' heq ht => ?_) fun t _ t' heq ht => ?_
    · obtain ⟨-, -, -, hvisits, hwrites, hstuck⟩ := ht
      exact ⟨hvisits ▸ hs.visits, hwrites ▸ hs.writes, hstuck.trans hs.stuck⟩
    · cases heq
      obtain ⟨hrun, -, hbuf, -, hvisits, hwrites, hstuck⟩ := ht
      obtain ⟨hist, a, hreach, hmem, hcap, hbelow, habove⟩ := hs.version
      obtain ⟨hbelow', habove'⟩ := hs.overlay hbelow habove
      refine ⟨⟨⟨hvisits ▸ hs.visits, hwrites ▸ hs.writes, hstuck.trans hs.stuck⟩, fun b at_ hb => ?_,
        (l, a.overwrite s.pending) :: hist, a.overwrite s.pending, ?_, List.mem_cons_self .., hcap,
        fun q hq _ => hbelow' q hq, habove'⟩, rfl, hbuf ▸ hbuffer⟩
      · cases hb
      · exact Reaches.capture request.keyId request.packLimit request.capacity s.root a s.pending hreach hkey hmem
          hrun
    · cases heq

variable {start n offset i : Nat}

/-- A block that is not zero joins the waiting ones. -/
theorem Chunk.move (hoffset : blockSize ∣ offset) (hi : blockSize ∣ i) (hin : i + blockSize ≤ n)
    (hfit : start + n ≤ bufferBytes) (hs : Chunk C h.rand request ok disk V start n offset i s) :
    let dst := s.changes.entries.length * blockSize
    let t : InitialVersion := { s with
      buffer := splice s.buffer dst (window s.buffer (start + i) blockSize)
      changes := s.changes.insert ((offset + i) / blockSize) dst
      writes := s.writes ++
        [{ dst, size := blockSize, unread := start + i + blockSize, stop := start + n
           pending := s.changes.entries.map fun c => c.2 }] }
    Holding C h.rand request ok disk V (offset + (i + blockSize)) t
      ∧ t.changes.entries.length = s.changes.entries.length + 1
      ∧ ∀ j, i + blockSize ≤ j → j < n → t.buffer (start + j) = disk.content (offset + j) := by
  intro dst t
  have hlen : (window s.buffer (start + i) blockSize).length = blockSize := length_window ..
  -- the block is still in the buffer as it was read
  have hblock : window s.buffer (start + i) blockSize = window disk.content (offset + i) blockSize := by
    refine List.map_congr_left fun k hk => ?_
    have hk := List.mem_range.mp hk
    rw [Nat.add_assoc, Nat.add_assoc]
    exact hs.unread (i + k) (by omega) (by omega)
  have haligned : (offset + i) / blockSize * blockSize = offset + i := Nat.div_mul_cancel (hoffset.add hi)
  -- what waits lies below the block
  have hnew : (offset + i) / blockSize ∉ s.changes := by
    intro hmem
    obtain ⟨at_, hlook⟩ := Option.isSome_iff_exists.mp (AList.lookup_isSome.mpr hmem)
    have := (hs.placed _ _ hlook).1
    unfold blockSize at *
    omega
  have hcount : t.changes.entries.length = s.changes.entries.length + 1 := by
    show (s.changes.insert _ dst).entries.length = _
    rw [AList.entries_insert_of_notMem hnew, List.length_cons]
  have hbehind := hs.behind
  refine ⟨⟨⟨hs.visits, fun w hw => ?_, hs.stuck⟩, fun b at_ hb => ?_, ?_⟩, hcount, fun j hj hjn => ?_⟩
  · rcases List.mem_append.mp hw with hw | hw
    · exact hs.writes w hw
    · rw [List.mem_singleton.mp hw]
      refine ⟨by simp only; omega, .inl (by simp only; omega), fun p hp => .inl ?_⟩
      obtain ⟨⟨b, at_⟩, hc, hp⟩ := List.mem_map.mp hp
      have hlook : s.changes.lookup b = some at_ := AList.mem_lookup_iff.mpr hc
      rw [← hp]
      exact (hs.placed b at_ hlook).2.1
  · rw [hcount]
    -- the new block has moved to `dst`, and those that waited lie before it
    by_cases hbi : b = (offset + i) / blockSize
    · subst hbi
      have hat : dst = at_ := by
        have : (s.changes.insert _ dst).lookup ((offset + i) / blockSize) = some at_ := hb
        rw [AList.lookup_insert] at this
        exact Option.some.inj this
      rw [haligned, ← hat]
      refine ⟨by omega, by rw [Nat.succ_mul], ?_⟩
      have hself := window_splice_self s.buffer dst (window s.buffer (start + i) blockSize)
      rw [hlen] at hself
      exact hself.trans hblock
    · have hlook : s.changes.lookup b = some at_ := by
        rw [← hb]
        exact (AList.lookup_insert_ne hbi).symm
      obtain ⟨hpos, hat, hwindow⟩ := hs.placed b at_ hlook
      exact ⟨by omega, by rw [Nat.succ_mul]; omega, (window_splice_before hat).trans hwindow⟩
  · obtain ⟨hist, a, hreach, hmem, hcap, hbelow, habove⟩ := hs.version
    refine ⟨hist, a, hreach, hmem, hcap, fun q hq hnone => ?_, fun q hq => habove q (by omega)⟩
    have hother : q / blockSize ≠ (offset + i) / blockSize := by
      intro heq
      have : (s.changes.insert _ dst).lookup (q / blockSize) = none := hnone
      rw [heq, AList.lookup_insert] at this
      cases this
    refine hbelow q ?_ ?_
    · unfold blockSize at *
      omega
    · rw [← hnone]
      exact (AList.lookup_insert_ne hother).symm
  · show splice s.buffer dst _ (start + j) = _
    rw [splice_of_le (by omega)]
    exact hs.unread j (by omega) hjn

/-- **One block of a chunk.** -/
theorem triple_keepBlock (hkey : ok request.keyId) (hoffset : blockSize ∣ offset) (hi : blockSize ∣ i)
    (hin : i + blockSize ≤ n) (hfit : start + n ≤ bufferBytes) {block : Bytes} {stop : Nat} (hstop : stop = start + n)
    (hs : Chunk C h.rand request ok disk V start n offset i s) (hblock : block = window s.buffer (start + i) blockSize) :
    Triple (.trivial _) (fun t => t = s) (keepBlock h C request start stop offset i block)
      (fun _ => Chunk C h.rand request ok disk V start n offset (i + blockSize)) (Careful V) := by
  unfold keepBlock
  -- a zero block is not kept: the disk reads as zeros there
  refine Triple.ite (fun hzero => Triple.pure fun t _ ht => ?_) fun hne => ?_
  · rw [ht]
    rw [hblock, zeroBlock, ← window_zeros (start + i)] at hzero
    refine ⟨?_, hs.few, hs.behind.trans (by omega), fun j hj => hs.unread j (by omega)⟩
    rw [← Nat.add_assoc]
    refine hs.toHolding.skip (by omega) fun q hlo hhi => ?_
    have hread := hs.unread (q - offset) (by omega) (by omega)
    rw [show offset + (q - offset) = q by omega] at hread
    rw [← hread]
    exact window_inj hzero (by omega) (by omega)
  · have hfew := hs.few
    have hbehind := hs.behind
    refine Triple.bind (Q := fun _ t => Holding C h.rand request ok disk V (offset + (i + blockSize)) t
      ∧ t.changes.entries.length = s.changes.entries.length + 1
      ∧ ∀ j, i + blockSize ≤ j → j < n → t.buffer (start + j) = disk.content (offset + j))
      (Triple.effect (fun t _ t' heq ht => ?_) fun t _ t' heq _ => by cases heq) fun _ => ?_
    · cases heq
      rw [ht, hblock, hstop]
      exact hs.move hoffset hi hin hfit
    · refine Triple.of_pre fun t _ ht => ?_
      obtain ⟨hheld, hcount, hunread⟩ := ht
      refine Triple.reads_bind hheld.toCareful fun count hcount' => ?_
      cases hcount'
      -- the move may have filled the batch, which is then flushed
      refine Triple.ite (fun hfull => ?_) fun hroom => Triple.pure fun u _ hu => ?_
      · refine (triple_flush hkey disk (offset + (i + blockSize)) fun b => ∀ j, i + blockSize ≤ j → j < n →
          b (start + j) = disk.content (offset + j)).conseq (fun u hu => ?_) (fun _ u hu => ?_) fun _ hu => hu
        · rw [hu]
          exact ⟨hheld, hunread⟩
        · obtain ⟨hheld', hnone, hunread'⟩ := hu
          exact ⟨hheld', by rw [hnone]; decide, by rw [hnone]; omega, hunread'⟩
      · rw [hu]
        refine ⟨hheld, by omega, ?_, hunread⟩
        rw [hcount, Nat.succ_mul]
        omega

/-- The blocks of a chunk, one by one. -/
theorem triple_inspectChunk (hkey : ok request.keyId) (hoffset : blockSize ∣ offset) (hn : blockSize ∣ n)
    (hfit : start + n ≤ bufferBytes) :
    Triple (.trivial _) (Chunk C h.rand request ok disk V start n offset 0) (inspectChunk h C request start n offset)
      (fun _ => Chunk C h.rand request ok disk V start n offset n) (Careful V) := by
  obtain ⟨k, hk⟩ := hn
  rw [Nat.mul_comm] at hk
  have hrounds : (n + (blockSize - 1)) / blockSize = k := by
    unfold blockSize at *
    omega
  unfold inspectChunk
  rw [hrounds]
  -- a variable in its place keeps unification from computing a block
  generalize hload : chunkBlock start = load
  refine (Triple.foldlM (fun done _ => Chunk C h.rand request ok disk V start n offset
    (done.length * blockSize)) (fun done x rest _ heq => ?_) fun s hs => by simpa using hs).post fun _ s hs => ?_
  · have hx : x = done.length := by
      have hget := congrArg (fun l => l[done.length]?) heq
      have hlen := congrArg List.length heq
      simp only [List.length_range, List.length_append, List.length_cons] at hlen
      simpa [show done.length < k by omega] using hget.symm
    have hlen := congrArg List.length heq
    simp only [List.length_range, List.length_append, List.length_cons] at hlen
    rw [hx, List.length_append, List.length_singleton, Nat.succ_mul]
    have hnext := Nat.mul_le_mul_right blockSize (show done.length + 1 ≤ k by omega)
    rw [Nat.succ_mul, ← hk] at hnext
    refine Triple.of_pre fun s _ hs => Triple.reads_bind hs.toCareful fun block hblock => ?_
    rw [← hload] at hblock
    exact triple_keepBlock hkey hoffset (Nat.dvd_mul_left _ _) hnext hfit rfl hs (Except.ok.inj hblock).symm
  · rwa [List.length_range, ← hk] at hs

/-- Reading a chunk behind the waiting blocks. -/
theorem triple_readChunk (hs : Roomy C h.rand request ok disk V offset s)
    (hfit : s.changes.entries.length * blockSize + n ≤ bufferBytes) (hsize : offset + n ≤ disk.size) :
    Triple (.trivial _) (fun t => t = s) (readChunk h disk (s.changes.entries.length * blockSize) offset n)
      (fun _ => Chunk C h.rand request ok disk V (s.changes.entries.length * blockSize) n offset 0) (Careful V) := by
  unfold readChunk
  refine Triple.bind (Q := fun _ t => t = { s with calls := s.calls + 1 }) (Triple.effect (fun t _ t' heq ht => ?_)
    fun t _ t' heq ht => ?_) fun _ => Triple.effect (fun t _ t' heq ht => ?_) fun t _ t' heq ht => ?_
  · rw [← (Prod.mk.inj heq).2, ht]
  · rw [← (Prod.mk.inj heq).2, ht]
    exact (hs.toHolding.call _).toCareful
  all_goals
    have hn : min n (disk.size - offset) = n := by omega
    have hdata : (window disk.content offset n).length = n := length_window ..
    simp only [hn, hdata, ht] at heq
  · rw [← (Prod.mk.inj heq).2]
    refine ⟨⟨⟨hs.visits, fun w hw => ?_, hs.stuck⟩, fun b at_ hb => ?_, hs.version⟩, hs.few, by simp, fun j _ hj => ?_⟩
    · rcases List.mem_append.mp hw with hw | hw
      · exact hs.writes w hw
      · rw [List.mem_singleton.mp hw]
        refine ⟨hfit, .inl (le_refl _), fun p hp => .inl ?_⟩
        obtain ⟨⟨b, at_⟩, hc, hp⟩ := List.mem_map.mp hp
        rw [← hp]
        exact (hs.placed b at_ (AList.mem_lookup_iff.mpr hc)).2.1
    · obtain ⟨hpos, hat, hwindow⟩ := hs.placed b at_ hb
      exact ⟨hpos, hat, (window_splice_before hat).trans hwindow⟩
    · have hself := window_splice_self s.buffer (s.changes.entries.length * blockSize) (window disk.content offset n)
      rw [hdata] at hself
      have := congrArg (fun l => l[j]?) hself
      simpa only [getElem?_window _ _ hj, Option.some.injEq] using this
  · have := (Prod.mk.inj heq).1
    rw [reject, if_neg (lt_irrefl n)] at this
    cases this

/-- The chunks of a batch. -/
theorem triple_readBatch (hkey : ok request.keyId) : ∀ fuel offset size, blockSize ∣ offset → blockSize ∣ size →
    offset + size ≤ disk.size → size < fuel →
      Triple (.trivial _) (Roomy C h.rand request ok disk V offset) (readBatch h C request disk fuel offset size)
        (fun _ => Roomy C h.rand request ok disk V (offset + size)) (Careful V) := by
  intro fuel
  induction fuel with
  | zero => intro offset size _ _ _ hfuel; omega
  | succ fuel ih =>
    intro offset size hoffset hsize hdisk hfuel
    unfold readBatch
    refine Triple.ite (fun hpos => ?_) fun hdone => ?_
    · refine Triple.of_pre fun s _ hs => Triple.reads_bind hs.toCareful fun count hcount => ?_
      cases hcount
      have hfew := hs.few
      -- fewer than a batch of blocks wait, so at least the read-ahead is free
      have hroom : s.changes.entries.length * blockSize + 65536 ≤ bufferBytes := by
        unfold bufferBytes batchBytes maxChangedBlocks maxRecords blockSize at *
        omega
      have hn : blockSize ∣ min size (bufferBytes - s.changes.entries.length * blockSize) := by
        unfold bufferBytes batchBytes maxChangedBlocks maxRecords blockSize at *
        omega
      have hfit : s.changes.entries.length * blockSize + min size (bufferBytes - s.changes.entries.length * blockSize)
          ≤ bufferBytes := by omega
      refine Triple.bind (triple_readChunk hs hfit (by omega)) fun _ =>
        Triple.bind (triple_inspectChunk hkey hoffset hn hfit) fun _ => ?_
      refine (ih _ _ (hoffset.add hn) (Nat.dvd_sub hsize hn) (by omega) (by omega)).conseq (fun t ht => ?_)
        (fun _ t ht => ?_) fun _ ht => ht
      · exact ⟨ht.toHolding, ht.few⟩
      · rwa [Nat.add_assoc, Nat.add_sub_cancel' (Nat.min_le_left _ _)] at ht
    · have heq : size = 0 := by omega
      exact Triple.pure fun s _ hs => by rwa [heq]

end Blocks

/-! ## The capture -/

section Capture

variable {C : Crypto} {h : Host} {request : VersionCapture} {ok : Bytes → Prop} {disk : SparseFile}

/-- After however many host calls, a capture that has done nothing yet. -/
abbrev Started (request : VersionCapture) (s : InitialVersion) : Prop :=
  ∃ n, s = { InitialVersion.start request with calls := n }

/-- However far the walk over the file has come. -/
abbrev Walked (disk : SparseFile) : InitialVersion → Prop := Careful fun visits => ∃ pos, Visited disk pos visits

/-- The visitor keeps the version up with the walk. -/
theorem walks_visitBatch (hkey : ok request.keyId) (disk : SparseFile) :
    Walks disk (fun pos s => Roomy C h.rand request ok disk (Visited disk pos) pos s)
      (Walked disk) (visitBatch h C request disk) where
  call pos s n hs := ⟨hs.toHolding.call n, hs.few⟩
  fail pos s hs := ⟨⟨pos, hs.visits⟩, hs.writes, hs.stuck⟩
  skip pos pos' s hs hle hdvd hholes := by
    have hskip := hs.toHolding.skip hle fun q hlo hhi => disk.holes q (hholes q hlo hhi)
    exact ⟨⟨⟨hs.visits.skip hle hdvd hholes, hs.writes, hs.stuck⟩, hskip.placed, hskip.version⟩, hs.few⟩
  visit start size hbatch hfit hmeets := by
    unfold visitBatch
    refine Triple.bind (Q := fun _ => Roomy C h.rand request ok disk (Visited disk (start + size)) start)
      (Triple.effect (fun s _ s' heq hs => ?_) fun s _ s' heq _ => by cases heq) fun _ => ?_
    · cases heq
      exact ⟨⟨⟨hs.visits.visit hbatch hmeets, hs.writes, hs.stuck⟩, hs.placed, hs.version⟩, hs.few⟩
    · exact (triple_readBatch hkey _ start size hbatch.1 hbatch.2.1 hfit (by omega)).conseq (fun _ hs => hs)
        (fun _ _ hs => hs) fun s hs => ⟨⟨_, hs.visits⟩, hs.writes, hs.stuck⟩

theorem validGeometry_of_empty {σ : Type} {w : Writer σ} {capacity fanout : Int} {s s' : σ} {l : Locator}
    (hrun : Act.from (w.empty C capacity fanout) s = (.ok l, s')) : ValidGeometry capacity fanout := by
  obtain ⟨_, t, hcheck, -⟩ := from_bind_ok hrun
  have hok := (Prod.mk.inj hcheck).1
  rw [reject_eq_ok] at hok
  exact not_not.mp hok

/-- The empty version a capture starts from. -/
theorem triple_start (hkey : ok request.keyId) (hcap : (disk.size : Int) = request.capacity) :
    Triple (.trivial _) (Started request)
      ((h.writer request).empty C request.capacity request.fanout)
      (fun root s => Roomy C h.rand request ok disk (Visited disk 0) 0 { s with root } ∧ blockSize ∣ disk.size)
      (Walked disk) := by
  refine Triple.of_pre fun s _ hs => ?_
  obtain ⟨n, rfl⟩ := hs
  refine (triple_writer (empty_mirrors C) _).conseq (fun _ ht => ht) (fun root t ht => ?_) fun t ht => ?_
  · obtain ⟨hrun, -, -, hchanges, hvisits, hwrites, hstuck⟩ := ht
    have hnone (b : Nat) : t.changes.lookup b = none := by
      rw [hchanges]
      rfl
    -- nothing is visited, written or changed yet, and the version is all zeros
    have hgeometry := validGeometry_of_empty hrun
    refine ⟨⟨⟨⟨?_, ?_, hstuck⟩, ?_, [(root, .zero request.capacity)], .zero request.capacity, ?_,
      List.mem_singleton_self _, rfl, fun q hq => absurd hq (by omega), fun _ _ => rfl⟩, ?_⟩, ?_⟩
    · rw [hvisits]
      exact Visited.start
    · rw [hwrites]
      intro w hw
      cases hw
    · intro b at_ hb
      rw [hnone] at hb
      cases hb
    · exact Reaches.empty request.keyId request.packLimit request.capacity request.fanout Reaches.start hkey hrun
    · show t.changes.entries.length < maxChangedBlocks
      rw [hchanges]
      show 0 < maxChangedBlocks
      decide
    · unfold ValidGeometry blockSize at *
      omega
  · obtain ⟨-, -, -, hvisits, hwrites, hstuck⟩ := ht
    refine ⟨⟨0, ?_⟩, ?_, hstuck⟩
    · rw [hvisits]
      exact Visited.start
    · rw [hwrites]
      intro w hw
      cases hw

/-- **A whole capture.** -/
theorem triple_captureInitialVersion (hkey : ok request.keyId) (hdisk : request.disk = some disk) :
    Triple (.trivial _) (Started request)
      (captureInitialVersion h C request)
      (fun _ => Finished C h.rand request ok disk) (Walked disk) := by
  have hclean : ∀ s, Started request s → Walked disk s := by
    rintro s ⟨n, rfl⟩
    exact ⟨⟨0, Visited.start⟩, fun w hw => (List.not_mem_nil hw).elim, rfl⟩
  have hwait := triple_call (h := h) (P := Started request)
    (fun s n hs => by
      obtain ⟨m, rfl⟩ := hs
      exact ⟨n, rfl⟩) hclean
  have hafter := triple_call (h := h) (P := Finished C h.rand request ok disk) (E := Walked disk)
    (fun s n hs => ⟨hs.1.call n, hs.2⟩) fun s hs => ⟨⟨_, hs.1.visits⟩, hs.1.writes, hs.1.stuck⟩
  unfold captureInitialVersion
  rw [hdisk]
  refine Triple.attempt_bind hclean fun _ _ => hwait.bind fun _ => hwait.bind fun _ =>
    Triple.attempt_bind hclean fun _ hstat => hwait.bind fun _ => hwait.bind fun _ => ?_
  rw [reject_eq_ok, not_or, not_not] at hstat
  refine (triple_start hkey hstat.2).bind fun root => ?_
  refine Triple.bind (Q := fun _ s => Roomy C h.rand request ok disk (Visited disk 0) 0 s ∧ blockSize ∣ disk.size)
    (Triple.effect (fun s _ s' heq hs => ?_) fun s _ s' heq _ => by cases heq) fun _ => ?_
  · cases heq
    exact hs
  · refine Triple.of_pre fun s _ hs => ?_
    obtain ⟨hs, hsize⟩ := hs
    have hwalk := triple_walk (h := h) (walks_visitBatch (C := C) (h := h) hkey disk) hsize
      (disk.size + 1) 0 (Nat.dvd_zero _) (Nat.zero_le _) (by omega)
    refine Triple.bind (hwalk.pre fun t ht => ht ▸ hs) fun _ => Triple.bind
      (Q := fun _ => Finished C h.rand request ok disk) ?_ fun _ => hafter.bind fun _ => hafter
    refine (triple_flush hkey disk disk.size fun _ => True).conseq (fun t ht => ⟨ht.toHolding, .intro⟩)
      (fun _ t ht => ⟨ht.1, ht.2.1, hstat.2⟩) fun t ht => ⟨⟨_, ht.visits⟩, ht.writes, ht.stuck⟩

/-- **An initial version is the file.** Under a key id that is UTF-8 text it reads as the file. Under every key id
a capture visits each block with data once and no other, in batches of whole blocks; the buffer is written only
where nothing waits in it, and the walk over the file ends. -/
theorem initial_version_exact (hC : C.Lawful) (hdisk : request.disk = some disk) {r : Result Unit} {s : InitialVersion}
    (hrun : Act.from (captureInitialVersion h C request) (.start request) = (r, s)) :
    (Utf8 request.keyId → r = .ok () → NoCollision s.staging.objects →
        (∀ i < s.staging.drawn, ∀ j < s.staging.drawn, h.rand i = h.rand j → i = j) →
        ReadsAs C s.staging.objects request.scope request.keys s.root
          { capacity := request.capacity, content := disk.content })
      ∧ (r = .ok () → ∀ b, disk.Meets b → visitCount s.visits b = 1)
      ∧ (∀ b, visitCount s.visits b ≤ 1 ∧ (¬disk.Meets b → visitCount s.visits b = 0))
      ∧ (∀ batch ∈ s.visits, Batched batch)
      ∧ (∀ w ∈ s.writes, w.Safe)
      ∧ s.stuck = false := by
  -- what is asked of key ids matters for reading only
  have hcapture := @triple_captureInitialVersion C h request (fun _ => True) disk trivial hdisk
  have hcareful : Walked disk s := by
    cases r with
    | ok _ =>
      obtain ⟨hs, -⟩ := hcapture.ok hrun .intro ⟨0, rfl⟩
      exact ⟨⟨_, hs.visits⟩, hs.writes, hs.stuck⟩
    | error e => exact hcapture.error hrun .intro ⟨0, rfl⟩
  obtain ⟨⟨pos, hvisited⟩, hwrites, hstuck⟩ := hcareful
  refine ⟨fun hkey hr hsha hsalt => ?_, fun hr b hb => ?_, fun b => ⟨?_, fun hb => ?_⟩, hvisited.batched, hwrites,
    hstuck⟩
  · subst hr
    obtain ⟨hs, hnone, hcap⟩ := (triple_captureInitialVersion (C := C) (h := h) hkey hdisk).ok hrun .intro ⟨0, rfl⟩
    obtain ⟨hist, a, hreach, hmem, hacap, hbelow, -⟩ := hs.version
    obtain ⟨K, hK⟩ := hreach.catalogs hC ⟨hsha, hsalt⟩
    obtain ⟨t, hopen, hreads⟩ := hK.readsAs hC hsha hmem
    have hempty : s.changes.entries = [] := List.length_eq_zero_iff.mp hnone
    have hlook (b : Nat) : s.changes.lookup b = none := by
      unfold AList.lookup
      rw [hempty]
      rfl
    refine ⟨t, hopen, fun offset length h0 h1 hmax hfit => ?_⟩
    rw [hreads offset length h0 h1 hmax (hacap ▸ hfit)]
    refine congrArg _ (window_congr fun q _ hq => hbelow q ?_ (hlook _))
    simp only at hfit
    omega
  · subst hr
    obtain ⟨hs, -⟩ := hcapture.ok hrun .intro ⟨0, rfl⟩
    obtain ⟨p, hp, hdiv, hdata⟩ := hb
    refine hs.visits.once b ⟨p, hp, hdiv, hdata⟩ ?_
    rw [div_eq_iff_block] at hdiv
    omega
  · by_cases hb : disk.Meets b ∧ b * blockSize < pos
    · rw [hvisited.once b hb.1 hb.2]
    · rw [hvisited.never b hb]
      exact Nat.zero_le 1
  · exact hvisited.never b fun hc => hb hc.1

end Capture

/-! ## A capture -/

/-- A file of one block with one byte of data. -/
def byteFile : SparseFile where
  regular := true
  size := 4096
  content p := if p = 0 then 1 else 0
  isData p := p = 0
  holes _ hp := if_neg (of_decide_eq_false hp)

def quietHost : Host where
  outcome _ := .ok ()
  rand := byteDigest

def fileRequest (keyId : Bytes) : VersionCapture where
  disk := some byteFile
  capacity := 4096
  stagingParent := ascii "staging"
  scope := ascii "disk"
  keyId := keyId
  key := List.replicate 32 1
  fanout := 64
  packLimit := 1048576
  maxStagedBytes := 1048576
  maxObjects := 16

def fileCapture (keyId : Bytes) : Result Unit × InitialVersion :=
  Act.from (captureInitialVersion quietHost plainCrypto (fileRequest keyId)) (.start (fileRequest keyId))

/-- The capture succeeded, with objects of different digests under four salts. -/
def completed (run : Result Unit × InitialVersion) : Bool :=
  run.1.toBool ∧ (run.2.staging.objects.map Prod.fst).Nodup ∧ run.2.staging.drawn = 4

theorem fileCapture_meets {keyId : Bytes} (hrun : completed (fileCapture keyId) = true) :
    ∃ s, fileCapture keyId = (.ok (), s) ∧ NoCollision s.staging.objects
      ∧ ∀ i < s.staging.drawn, ∀ j < s.staging.drawn, quietHost.rand i = quietHost.rand j → i = j := by
  rcases hcapture : fileCapture keyId with ⟨r, s⟩
  rw [hcapture] at hrun
  simp only [completed, decide_eq_true_eq] at hrun
  obtain ⟨hok, hnodup, hdrawn⟩ := hrun
  cases r with
  | error e => cases hok
  | ok _ =>
    refine ⟨s, rfl, NoCollision.of_nodup hnodup, ?_⟩
    rw [hdrawn]
    exact byteDigest_inj

theorem initial_version_exact_demo : ∃ s, fileCapture (ascii "key") = (.ok (), s)
    ∧ ReadsAs plainCrypto s.staging.objects (ascii "disk") (fileRequest (ascii "key")).keys s.root
        { capacity := 4096, content := byteFile.content }
    ∧ visitCount s.visits 0 = 1 := by
  have hdone : completed (fileCapture (ascii "key")) = true := by decide +kernel
  obtain ⟨s, hrun, hsha, hsalt⟩ := fileCapture_meets hdone
  have hexact := @initial_version_exact plainCrypto quietHost (fileRequest (ascii "key")) byteFile plainCrypto_lawful rfl
    _ s hrun
  exact ⟨s, hrun, hexact.1 (utf8_of_ascii (by decide)) rfl hsha hsalt, hexact.2.1 rfl 0 ⟨0, by decide, rfl, rfl⟩⟩

/-- The first byte of the version a capture made. -/
def fileCaptureRead (keyId : Bytes) : Result Bytes := do
  let s := (fileCapture keyId).2
  let t ← openTree plainCrypto s.staging.objects.source (ascii "disk") (fileRequest keyId).keys s.root
  t.readRange plainCrypto 0 1

/-- **A key id that is not UTF-8 text.** The capture succeeds and its version cannot be read. -/
theorem initial_version_key_not_utf8 : ∃ s, fileCapture [255] = (.ok (), s) ∧ NoCollision s.staging.objects
    ∧ (∀ i < s.staging.drawn, ∀ j < s.staging.drawn, quietHost.rand i = quietHost.rand j → i = j)
    ∧ ¬ReadsAs plainCrypto s.staging.objects (ascii "disk") (fileRequest [255]).keys s.root
        { capacity := 4096, content := byteFile.content } := by
  have hcheck : completed (fileCapture [255]) = true ∧ (fileCaptureRead [255]).toBool = false := by decide +kernel
  obtain ⟨s, hrun, hsha, hsalt⟩ := fileCapture_meets hcheck.1
  refine ⟨s, hrun, hsha, hsalt, ?_⟩
  rintro ⟨t, hopen, hreads⟩
  have hread := hreads 0 1 (by decide) (by decide) (by decide) (by decide)
  have hfailed := hcheck.2
  rw [fileCaptureRead, hrun] at hfailed
  simp only at hfailed
  rw [hopen, ok_bind, hread] at hfailed
  cases hfailed

end Helmr.Disk
