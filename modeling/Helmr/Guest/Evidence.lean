import Helmr.Lib.Journal
import Helmr.Lib.Runs
import Helmr.Guest.Moves

/-!
# Guest — a Turn is finalized on current evidence

`Proper` is what holds of a session after every call: evidence covers a closed Turn whose drain was
confirmed, with nothing processed since; a pending `FINALIZE` or `FAIL` belongs to a closed Turn and
was admitted on such evidence. It is kept by every move (`Proper.move`), so by every run.

That nothing but a hold is admitted for a Turn that was settled needs a host that numbers each Turn one
way in dispatches and acknowledgments (`Command.Numbered`). Then a settled Turn is owned and settled, or
gone for good: the watermark has reached its number (`Final`, kept by `Final.move`). Under another number
a settled Turn comes back (`settled_turn_operates_again`).
-/

namespace Helmr.Guest

open Wire Hoare FiniteMap Journal Runs Relation

/-! ## What the history says -/

/-- The operations that add to what a Turn has processed. -/
def processingMethods : List Method := [.respond, .registerMessages, .ask, .withdrawAsk, .output]

/-- An operation of the Turn was admitted that adds to what it has processed. -/
def Note.processes (turnId : Bytes) : Note → Bool
  | .admitted op .. => op.turnId = turnId && processingMethods.contains op.method
  | _ => false

/-- The last confirmed drain of the Turn has not been followed by processing. -/
def drained (turnId : Bytes) : List Note → Bool :=
  latch (fun n => n = .confirmed turnId) (Note.processes turnId)

/-- The evidence a `FINALIZE` or `FAIL` is admitted with: drawn for its Turn while that was closed and
the process ran, not outdated, with no mutation of the Turn outstanding. -/
structure Current (before : List Note) (op : Operation) (evidence : Bytes) (generation : Int)
    (outstanding : List Operation) : Prop where
  present : evidence ≠ []
  drawn : .drew op.turnId evidence generation true true ∈ before
  drained : drained op.turnId before = true
  alone : ∀ other ∈ outstanding, other.turnId = op.turnId → agentMutation other.method = false

/-- What holds of every note when it is written. -/
def Sound (before : List Note) : Note → Prop
  | .admitted op evidence generation outstanding =>
    op.final = true → Current before op evidence generation outstanding
  | .panicked => False
  | _ => True

/-! ## The invariant -/

structure Proper (c : Core) : Prop where
  named : c.turns.lookup [] = none
  finals : ∀ id pending, c.pending.lookup id = some pending → pending.operation.final = true →
    ∃ turn, c.turns.lookup pending.operation.turnId = some turn ∧ turn.closed = true
  journaled : ∀ id pending, c.pending.lookup id = some pending →
    ∃ outstanding, .admitted pending.operation pending.evidence pending.generation outstanding ∈ c.history
  covered : ∀ id turn, c.turns.lookup id = some turn → turn.evidence ≠ [] →
    turn.closed = true ∧ .drew id turn.evidence turn.generation true true ∈ c.history ∧
      drained id c.history = true
  closed : ∀ id turn, c.turns.lookup id = some turn → turn.settled = true → turn.closed = true
  sound : Each Sound c.history

section Proper

variable {rules : Rules} {c c' : Core}

theorem Proper.finalsOwned (h : Proper c) : c.finalsOwned := by
  intro id pending hid hfinal
  obtain ⟨turn, hturn, _⟩ := h.finals id pending hid hfinal
  rw [hturn]
  rfl

/-- A note that outdates no evidence is written. -/
theorem Proper.note {n : Note} (h : Proper c) (hsound : Sound c.history n)
    (hquiet : ∀ id turn, c.turns.lookup id = some turn → turn.evidence ≠ [] → n.processes id = false) :
    Proper { c with history := c.history ++ [n] } where
  named := h.named
  finals := h.finals
  journaled id pending hid := by
    obtain ⟨outstanding, hmem⟩ := h.journaled id pending hid
    exact ⟨outstanding, List.mem_append_left _ hmem⟩
  covered id turn hid hevidence := by
    obtain ⟨hclosed, hdrawn, hdrained⟩ := h.covered id turn hid hevidence
    refine ⟨hclosed, List.mem_append_left _ hdrawn, ?_⟩
    show latch _ _ (c.history ++ [n]) = true
    rw [latch_snoc, hquiet id turn hid hevidence]
    rw [show latch _ _ c.history = true from hdrained]
    simp
  closed := h.closed
  sound := h.sound.snoc hsound

variable {id : Bytes} {turn' : TurnProof} {op : Operation}

/-- The entry of an owned Turn is replaced by one that is at least as far. -/
theorem Proper.turn {turn : TurnProof} (h : Proper c) (howned : c.turns.lookup id = some turn)
    (hclosed : turn.closed = true → turn'.closed = true) (hends : turn'.settled = true → turn'.closed = true)
    (hcovered : turn'.evidence ≠ [] → turn'.closed = true ∧
      .drew id turn'.evidence turn'.generation true true ∈ c.history ∧ drained id c.history = true) :
    Proper { c with turns := c.turns.insert id turn' } where
  named := by
    have hne : [] ≠ id := fun heq => by
      rw [← heq, h.named] at howned
      cases howned
    exact (AList.lookup_insert_ne hne).trans h.named
  finals id' pending hid hfinal := by
    obtain ⟨other, hother, hotherClosed⟩ := h.finals id' pending hid hfinal
    by_cases heq : pending.operation.turnId = id
    · rw [heq, howned] at hother
      cases hother
      exact ⟨turn', by rw [heq]; exact AList.lookup_insert _, hclosed hotherClosed⟩
    · exact ⟨other, (AList.lookup_insert_ne heq).trans hother, hotherClosed⟩
  journaled := h.journaled
  covered id' other hother hevidence := by
    rcases lookup_insert_eq_some.mp hother with ⟨rfl, rfl⟩ | ⟨_, hother'⟩
    · exact hcovered hevidence
    · exact h.covered id' other hother' hevidence
  closed id' other hother hends' := by
    rcases lookup_insert_eq_some.mp hother with ⟨_, rfl⟩ | ⟨_, hother'⟩
    · exact hends hends'
    · exact h.closed id' other hother' hends'
  sound := h.sound

/-- A Turn that was not owned is taken. -/
theorem Proper.take {sequence : Int} (h : Proper c) (hnamed : id ≠ []) (hfree : c.turns.lookup id = none) :
    Proper { c with turns := c.turns.insert id ⟨sequence, false, false, [], 0⟩ } := by
  have hkeep {id' : Bytes} {turn : TurnProof} (hid : c.turns.lookup id' = some turn) :
      (c.turns.insert id ⟨sequence, false, false, [], 0⟩).lookup id' = some turn := by
    rw [AList.lookup_insert_ne]
    · exact hid
    · intro heq
      rw [heq, hfree] at hid
      cases hid
  refine ⟨(AList.lookup_insert_ne hnamed.symm).trans h.named, ?_, h.journaled, ?_, ?_, h.sound⟩
  · intro id' pending hid hfinal
    obtain ⟨turn, hturn, hclosed⟩ := h.finals id' pending hid hfinal
    exact ⟨turn, hkeep hturn, hclosed⟩
  · intro id' turn hturn hevidence
    rcases lookup_insert_eq_some.mp hturn with ⟨_, rfl⟩ | ⟨_, hturn'⟩
    · exact absurd rfl hevidence
    · exact h.covered id' turn hturn' hevidence
  · intro id' turn hturn hsettled
    rcases lookup_insert_eq_some.mp hturn with ⟨_, rfl⟩ | ⟨_, hturn'⟩
    · cases hsettled
    · exact h.closed id' turn hturn' hsettled

/-- A Turn is given up, with its pending operations. -/
theorem Proper.retire (h : Proper c) (deliveries : AList fun _ : Bytes => Command) (terminalSequence : Int) :
    Proper { c with
      terminalSequence, deliveries
      turns := c.turns.erase id
      pending := keep (fun _ pending => pending.operation.turnId ≠ id) c.pending } where
  named := by
    rw [Option.eq_none_iff_forall_ne_some]
    intro turn hturn
    rw [lookup_erase_eq_some, h.named] at hturn
    cases hturn.2
  finals id' pending hid hfinal := by
    obtain ⟨hid', hother⟩ := lookup_keep_eq_some.mp hid
    obtain ⟨turn, hturn, hclosed⟩ := h.finals id' pending hid' hfinal
    exact ⟨turn, lookup_erase_eq_some.mpr ⟨by simpa using hother, hturn⟩, hclosed⟩
  journaled id' pending hid := h.journaled id' pending (lookup_keep_eq_some.mp hid).1
  covered id' turn hid := h.covered id' turn (lookup_erase_eq_some.mp hid).2
  closed id' turn hid := h.closed id' turn (lookup_erase_eq_some.mp hid).2
  sound := h.sound

/-- An operation is admitted and retained. -/
theorem Proper.retain {evidence : Bytes} {mcp : Bool} {generation leaseEpoch : Int} (h : Proper c)
    (hsound : Sound c.history (.admitted op evidence generation c.outstanding))
    (hquiet : ∀ turn, c.turns.lookup op.turnId = some turn → turn.evidence ≠ [] →
      op.method ∉ processingMethods)
    (hfinal : op.final = true → ∃ turn, c.turns.lookup op.turnId = some turn ∧ turn.closed = true) :
    Proper { c with
      pending := c.pending.insert op.requestId ⟨mcp, evidence, op, generation, leaseEpoch⟩
      history := c.history ++ [.admitted op evidence generation c.outstanding] } := by
  have hnoted := h.note hsound (fun id turn hturn hevidence => by
    simp only [Note.processes, List.contains_eq_mem, Bool.and_eq_false_iff, decide_eq_false_iff_not]
    by_cases heq : op.turnId = id
    · exact .inr (hquiet turn (heq ▸ hturn) hevidence)
    · exact .inl heq)
  refine ⟨hnoted.named, ?_, ?_, hnoted.covered, hnoted.closed, hnoted.sound⟩
  · intro id pending hid hfinal'
    rcases lookup_insert_eq_some.mp hid with ⟨_, rfl⟩ | ⟨_, hid'⟩
    · exact hfinal hfinal'
    · exact hnoted.finals id pending hid' hfinal'
  · intro id pending hid
    rcases lookup_insert_eq_some.mp hid with ⟨_, rfl⟩ | ⟨_, hid'⟩
    · exact ⟨c.outstanding, List.mem_append_right _ (by simp)⟩
    · exact hnoted.journaled id pending hid'

/-- Pending operations and deliveries may go. -/
theorem Proper.shrink {pending : AList fun _ : Bytes => PendingOperation} (h : Proper c)
    (hpending : ∀ id p, pending.lookup id = some p → c.pending.lookup id = some p)
    (deliveries : AList fun _ : Bytes => Command) : Proper { c with pending, deliveries } :=
  ⟨h.named, fun id p hid => h.finals id p (hpending id p hid),
    fun id p hid => h.journaled id p (hpending id p hid), h.covered, h.closed, h.sound⟩

theorem not_processing_of_final (h : op.final = true) : op.method ∉ processingMethods := by
  simp only [Operation.final, Bool.or_eq_true, decide_eq_true_eq] at h
  rcases h with h | h <;> simp [h, processingMethods]

theorem disturbs_of_processing (h : op.method ∈ processingMethods) : op.disturbs = true := by
  simp only [processingMethods, List.mem_cons, List.not_mem_nil, or_false] at h
  rcases h with h | h | h | h | h <;> simp [Operation.disturbs, agentMutation, h]

/-- **Every move keeps the invariant.** -/
theorem Proper.move (h : Proper c) (hmove : Move rules c c') : Proper c' := by
  cases hmove with
  | @dispatch turnId sequence hnamed _ _ =>
    cases hturn : c.turns.lookup turnId with
    | some turn => exact h
    | none => exact h.take hnamed hturn
  | deliver _ => exact h.shrink (fun _ _ hid => hid) _
  | close howned =>
    exact h.turn howned (fun _ => rfl) (fun _ => rfl) fun hevidence => ⟨rfl, (h.covered _ _ howned hevidence).2⟩
  -- a final operation was admitted for a closed Turn, which it settles
  | @settle id pending turn hretained hfinal howned _ =>
    obtain ⟨turn', hturn', hclosed⟩ := h.finals id pending hretained hfinal
    rw [howned] at hturn'
    cases hturn'
    have hset : Proper { c with
        turns := c.turns.insert pending.operation.turnId { turn with settled := true } } :=
      h.turn howned (fun hc => hc) (fun _ => hclosed) (h.covered _ turn howned)
    exact hset.note (n := .settled pending.operation.turnId) trivial (fun _ _ _ _ => rfl)
  | @answer id =>
    have hnoted := h.note (n := .answered id) trivial (fun _ _ _ _ => rfl)
    exact hnoted.shrink (fun _ _ hid => (lookup_erase_eq_some.mp hid).2) _
  | retire _ _ => exact h.retire _ _
  | forget => exact h.shrink (fun _ _ hid => hid) _
  | @confirm turnId evidence generation turn howned hclosed hdrawn =>
    have hdrew := h.note (n := .drew turnId evidence generation true true) trivial (fun _ _ _ _ => rfl)
    have hconfirmed := hdrew.note (n := .confirmed turnId) trivial (fun _ _ _ _ => rfl)
    have hdrained : drained turnId (c.history ++ [.drew turnId evidence generation true true] ++
        [.confirmed turnId]) = true := by
      unfold drained
      rw [latch_snoc]
      simp
    rw [List.append_cons c.history]
    exact hconfirmed.turn howned (fun hc => hc) (fun _ => hclosed) fun _ => ⟨hclosed, by simp, hdrained⟩
  | @redraw turnId evidence generation turn howned hclosed hcovered hdrawn =>
    have hdrew := h.note (n := .drew turnId evidence generation true true) trivial (fun _ _ _ _ => rfl)
    exact hdrew.turn howned (fun hc => hc) (fun _ => hclosed) fun _ =>
      ⟨hclosed, by simp, (hdrew.covered _ _ howned hcovered).2.2⟩
  | @drop turnId turn howned =>
    exact h.turn howned (fun hc => hc) (h.closed _ turn howned) fun hevidence => absurd rfl hevidence
  | @admitFree op mcp generation leaseEpoch hkind =>
    have hfinal : op.final = false := by
      rcases hkind with hhold | hfree
      · simp [Operation.final, hhold]
      · exact hfree.2
    apply h.retain
    · exact fun hf => absurd hf (by simp [hfinal])
    · intro turn hturn _
      rcases hkind with hhold | hfree
      · simp [hhold, processingMethods]
      · rw [hfree.1, h.named] at hturn
        cases hturn
    · exact fun hf => absurd hf (by simp [hfinal])
  | @admitOwned op turn generation leaseEpoch howned hunsettled hkind huncovered =>
    apply h.retain
    · exact fun hf => absurd hf (by simp [hkind])
    · intro turn' hturn' hevidence hprocessing
      rw [howned] at hturn'
      cases hturn'
      exact hevidence (huncovered (disturbs_of_processing hprocessing))
    · exact fun hf => absurd hf (by simp [hkind])
  -- the evidence of the moment is what the operation is admitted on
  | @admitFinal op turn leaseEpoch hfinal howned hunsettled hclosed hcovered halone =>
    obtain ⟨_, hdrawn, hdrained⟩ := h.covered _ _ howned hcovered
    apply h.retain
    · exact fun _ => ⟨hcovered, hdrawn, hdrained, halone⟩
    · exact fun _ _ _ => not_processing_of_final hfinal
    · exact fun _ => ⟨turn, howned, hclosed⟩

theorem Proper.moves (h : Proper c) (hmoves : Moves rules c c') : Proper c' := by
  induction hmoves with
  | refl => exact h
  | tail _ hlast ih => exact ih.move hlast

/-- A move settles a Turn only if the host's answer does. -/
theorem settled_of_move (hmove : Move rules c c') (hturn' : c'.turns.lookup id = some turn')
    (hsettled : turn'.settled = true) :
    (∃ turn, c.turns.lookup id = some turn ∧ turn.settled = true) ∨ rules.accepts id := by
  -- where the entry of one Turn is replaced by one that is not settled by it
  have hreplace {id' : Bytes} {turn new : TurnProof} (howned : c.turns.lookup id' = some turn)
      (hnew : (c.turns.insert id' new).lookup id = some turn') (hsame : new.settled = turn.settled) :
      ∃ turn, c.turns.lookup id = some turn ∧ turn.settled = true := by
    rcases lookup_insert_eq_some.mp hnew with ⟨rfl, rfl⟩ | ⟨_, hother⟩
    · exact ⟨turn, howned, hsame.symm.trans hsettled⟩
    · exact ⟨turn', hother, hsettled⟩
  cases hmove with
  | @dispatch turnId sequence _ _ _ =>
    cases hturn : c.turns.lookup turnId with
    | some turn =>
      simp only [hturn] at hturn'
      exact .inl ⟨turn', hturn', hsettled⟩
    | none =>
      simp only [hturn] at hturn'
      rcases lookup_insert_eq_some.mp hturn' with ⟨_, rfl⟩ | ⟨_, hother⟩
      · cases hsettled
      · exact .inl ⟨turn', hother, hsettled⟩
  | close howned => exact .inl (hreplace howned hturn' rfl)
  | settle _ _ howned haccepted =>
    rcases lookup_insert_eq_some.mp hturn' with ⟨rfl, _⟩ | ⟨_, hother⟩
    · exact .inr haccepted
    · exact .inl ⟨turn', hother, hsettled⟩
  | retire _ _ => exact .inl ⟨turn', (lookup_erase_eq_some.mp hturn').2, hsettled⟩
  | confirm howned _ _ => exact .inl (hreplace howned hturn' rfl)
  | redraw howned _ _ _ => exact .inl (hreplace howned hturn' rfl)
  | drop howned => exact .inl (hreplace howned hturn' rfl)
  | _ => exact .inl ⟨turn', hturn', hsettled⟩

theorem settled_of_moves (hmoves : Moves rules c c') (hturn' : c'.turns.lookup id = some turn')
    (hsettled : turn'.settled = true) :
    (∃ turn, c.turns.lookup id = some turn ∧ turn.settled = true) ∨ rules.accepts id := by
  induction hmoves generalizing turn' with
  | refl => exact .inl ⟨turn', hturn', hsettled⟩
  | tail _ hlast ih =>
    rcases settled_of_move hlast hturn' hsettled with ⟨turn, hturn, hsettled'⟩ | haccepted
    · exact ih hturn hsettled'
    · exact .inr haccepted

end Proper

/-! ## Settled for good -/

/-- A Turn that was settled is owned and settled, or is gone and has its number at or below the watermark, so
that no dispatch takes it again; and nothing but a hold was admitted for it after. -/
structure Final (number : Bytes → Int) (c : Core) : Prop where
  numbered : ∀ id command turnId sequence, c.deliveries.lookup id = some command →
    command.payload = .acknowledged turnId sequence → sequence = number turnId
  settled : ∀ id, .settled id ∈ c.history → id ≠ [] ∧
    (∀ turn, c.turns.lookup id = some turn → turn.settled = true) ∧
    (c.turns.lookup id = none → number id ≤ c.terminalSequence)
  sound : Each (fun before n => ∀ op evidence generation outstanding,
    n = .admitted op evidence generation outstanding → op.method ≠ .hold → .settled op.turnId ∉ before) c.history

section Final

variable {number : Bytes → Int} {rules : Rules} {c c' : Core}

/-- Pending operations do not matter, nor do notes that settle nothing and admit nothing of a settled Turn. -/
theorem Final.note {n : Note} (h : Final number c) (pending : AList fun _ : Bytes => PendingOperation)
    (hsettled : ∀ id, n ≠ .settled id)
    (hsound : ∀ op evidence generation outstanding, n = .admitted op evidence generation outstanding →
      op.method ≠ .hold → .settled op.turnId ∉ c.history) :
    Final number { c with pending, history := c.history ++ [n] } where
  numbered := h.numbered
  settled id hid := by
    rcases List.mem_append.mp hid with hold | hnew
    · exact h.settled id hold
    · exact absurd (List.mem_singleton.mp hnew).symm (hsettled id)
  sound := h.sound.snoc hsound

/-- The entry of an owned Turn is replaced by one that is settled if it was. -/
theorem Final.turn {id : Bytes} {turn turn' : TurnProof} (h : Final number c)
    (howned : c.turns.lookup id = some turn) (hsame : turn.settled = true → turn'.settled = true) :
    Final number { c with turns := c.turns.insert id turn' } where
  numbered := h.numbered
  settled id' hid := by
    obtain ⟨hnamed, hsettled, hgone⟩ := h.settled id' hid
    refine ⟨hnamed, fun other hother => ?_, fun hnone => hgone ?_⟩
    · rcases lookup_insert_eq_some.mp hother with ⟨rfl, rfl⟩ | ⟨_, hother'⟩
      · exact hsame (hsettled turn howned)
      · exact hsettled other hother'
    · by_cases heq : id' = id
      · exact absurd (heq ▸ hnone) (by simp [AList.lookup_insert])
      · exact (AList.lookup_insert_ne heq).symm.trans hnone
  sound := h.sound

/-- **Every move of a host that numbers Turns one way keeps what is settled.** -/
theorem Final.move (h : Final number c) (hproper : Proper c)
    (hnumber : ∀ turnId sequence, rules.numbers turnId sequence → sequence = number turnId)
    (hmove : Move rules c c') : Final number c' := by
  -- an unsettled entry belongs to a Turn that was never settled
  have hfresh {id : Bytes} {turn : TurnProof} (howned : c.turns.lookup id = some turn)
      (hunsettled : turn.settled = false) : .settled id ∉ c.history := by
    intro hmem
    rw [(h.settled id hmem).2.1 turn howned] at hunsettled
    cases hunsettled
  cases hmove with
  | @dispatch turnId sequence _ habove hnumbered =>
    cases hturn : c.turns.lookup turnId with
    | some turn => exact h
    | none =>
      refine ⟨h.numbered, fun id hid => ?_, h.sound⟩
      obtain ⟨hnamed, hsettled, hgone⟩ := h.settled id hid
      -- a Turn that was settled and is gone is not above the watermark
      have hne : id ≠ turnId := by
        rintro rfl
        have hle := hgone hturn
        rw [← hnumber _ _ hnumbered] at hle
        omega
      rw [AList.lookup_insert_ne hne]
      exact ⟨hnamed, hsettled, hgone⟩
  | deliver hnumbered =>
    refine ⟨fun id command turnId sequence hid hpayload => ?_, h.settled, h.sound⟩
    rcases lookup_insert_eq_some.mp hid with ⟨_, rfl⟩ | ⟨_, hid'⟩
    · exact hnumber _ _ (hnumbered turnId sequence hpayload)
    · exact h.numbered id command turnId sequence hid' hpayload
  | close howned => exact h.turn howned id
  | @settle id pending turn hretained hfinal howned _ =>
    have hset := h.turn howned (fun _ => rfl : turn.settled = true → { turn with settled := true }.settled = true)
    refine ⟨h.numbered, fun id' hid => ?_, h.sound.snoc fun _ _ _ _ heq => by cases heq⟩
    rcases List.mem_append.mp hid with hold | hnew
    · exact hset.settled id' hold
    · cases List.mem_singleton.mp hnew
      refine ⟨fun hempty => ?_, fun other hother => ?_, fun hnone => ?_⟩
      · rw [hempty, hproper.named] at howned
        cases howned
      · rw [AList.lookup_insert] at hother
        cases hother
        rfl
      · rw [AList.lookup_insert] at hnone
        cases hnone
  | answer => exact h.note _ (by simp) (by simp)
  | @retire id command turnId sequence hdelivered hnames =>
    have hsequence := h.numbered id command turnId sequence hdelivered hnames
    refine ⟨fun id' command' turnId' sequence' hid => ?_, fun id' hid => ?_, h.sound⟩
    · exact h.numbered id' command' turnId' sequence' (lookup_keep_eq_some.mp hid).1
    · obtain ⟨hnamed, hsettled, hgone⟩ := h.settled id' hid
      refine ⟨hnamed, fun turn hturn => hsettled turn (lookup_erase_eq_some.mp hturn).2, fun hnone => ?_⟩
      by_cases heq : id' = turnId
      · rw [heq, ← hsequence]
        exact le_max_right _ _
      · exact (hgone ((AList.lookup_erase_ne heq).symm.trans hnone)).trans (le_max_left _ _)
  | forget =>
    refine ⟨fun id' command turnId sequence hid => ?_, h.settled, h.sound⟩
    exact h.numbered id' command turnId sequence (lookup_erase_eq_some.mp hid).2
  | @confirm turnId evidence generation _ howned _ _ =>
    have hdrew := h.note (n := .drew turnId evidence generation true true) c.pending (by simp) (by simp)
    have hconfirmed := hdrew.note (n := .confirmed turnId) c.pending (by simp) (by simp)
    rw [List.append_cons c.history]
    exact hconfirmed.turn howned id
  | @redraw turnId evidence generation _ howned _ _ _ =>
    have hdrew := h.note (n := .drew turnId evidence generation true true) c.pending (by simp) (by simp)
    exact hdrew.turn howned id
  | drop howned => exact h.turn howned id
  | admitFree hkind =>
    refine h.note _ (by simp) fun op _ _ _ heq hhold hmem => ?_
    cases heq
    rw [(hkind.resolve_left hhold).1] at hmem
    exact (h.settled [] hmem).1 rfl
  | admitOwned howned hunsettled _ _ =>
    refine h.note _ (by simp) fun op _ _ _ heq _ => ?_
    cases heq
    exact hfresh howned hunsettled
  | admitFinal _ howned hunsettled _ _ _ =>
    refine h.note _ (by simp) fun op _ _ _ heq _ => ?_
    cases heq
    exact hfresh howned hunsettled

theorem Final.moves (h : Final number c) (hproper : Proper c)
    (hnumber : ∀ turnId sequence, rules.numbers turnId sequence → sequence = number turnId)
    (hmoves : Moves rules c c') : Final number c' := by
  induction hmoves with
  | refl => exact h
  | tail hbefore hlast ih => exact ih.move (hproper.moves hbefore) hnumber hlast

end Final

/-! ## Runs -/

section Run

variable {decodeStatus : Bytes → Option Bytes} {grant : Grant} {start : Bytes} {terminalSequence : Int}
  {trace : List (Env × Input × Except Error Output)} {s s' : Session}

theorem newSession_proper : Proper (newSession grant start terminalSequence).core := by
  refine ⟨rfl, ?_, ?_, ?_, ?_, each_nil⟩
  · exact fun id pending hid => by cases hid
  · exact fun id pending hid => by cases hid
  · exact fun id turn hid => by cases hid
  · exact fun id turn hid => by cases hid

theorem step_proper {call : Env × Input × Except Error Output} (h : Proper s.core)
    (hstep : Step decodeStatus s call s') : Proper s'.core :=
  h.moves (step_moves h.finalsOwned hstep)

theorem run_proper (h : Run (Step decodeStatus) (newSession grant start terminalSequence) trace s) :
    Proper s.core :=
  h.invariant (fun s => Proper s.core) (fun _ _ _ => step_proper) newSession_proper

/-- The command numbers the Turn it dispatches or acknowledges as `number` does. -/
def Command.Numbered (number : Bytes → Int) (c : Command) : Prop :=
  match c.payload with
  | .dispatch turnId sequence _ | .acknowledged turnId sequence => sequence = number turnId
  | _ => True

def Input.Numbered (number : Bytes → Int) : Input → Prop
  | .command c => c.Numbered number
  | _ => True

theorem Input.Numbered.eq {number : Bytes → Int} {input : Input} (h : input.Numbered number) {turnId : Bytes}
    {sequence : Int} (hnumbers : input.Numbers turnId sequence) : sequence = number turnId := by
  obtain ⟨command, rfl, ⟨body, hpayload⟩ | hpayload⟩ := hnumbers <;>
    · have hnumbered : command.Numbered number := h
      rwa [Command.Numbered, hpayload] at hnumbered

theorem run_final {number : Bytes → Int}
    (h : Run (Step decodeStatus) (newSession grant start terminalSequence) trace s)
    (hnumber : ∀ call ∈ trace, call.2.1.Numbered number) : Final number s.core := by
  have hinv : Proper s.core ∧ Final number s.core := by
    refine h.invariant_of (fun call => call.2.1.Numbered number) (fun s => Proper s.core ∧ Final number s.core) ?_
      ⟨newSession_proper, ?_, ?_, each_nil⟩ hnumber
    · intro t call u hcall ⟨hproper, hfinal⟩ hstep
      have hmoves := step_moves hproper.finalsOwned hstep
      exact ⟨hproper.moves hmoves, hfinal.moves hproper (fun _ _ => hcall.eq) hmoves⟩
    · exact fun id command turnId sequence hid => by cases hid
    · exact fun id hid => by cases hid
  exact hinv.2

/-- The operation was admitted on evidence that was current then. -/
def AdmittedOn (history : List Note) (op : Operation) (evidence : Bytes) (generation : Int) : Prop :=
  ∃ before outstanding after, history = before ++ .admitted op evidence generation outstanding :: after ∧
    Current before op evidence generation outstanding

theorem Proper.admittedOn {id : Bytes} {pending : PendingOperation} (h : Proper s.core)
    (hid : s.pending.lookup id = some pending) (hfinal : pending.operation.final = true) :
    AdmittedOn s.history pending.operation pending.evidence pending.generation := by
  obtain ⟨outstanding, hmem⟩ := h.journaled id pending hid
  obtain ⟨before, after, heq, hsound⟩ := h.sound.of_mem hmem
  exact ⟨before, outstanding, after, heq, hsound hfinal⟩

/-- **A Turn is finalized only on current evidence.** After every run, and over the next call: an
envelope with a `FINALIZE` or `FAIL`, sent first or again, carries the evidence it was admitted on, as
does every one that is pending; a Turn becomes settled only by the host's answer to such an operation;
a settled Turn is closed; and no missing Turn is dereferenced. Where every dispatch and every acknowledgment
of a Turn carry the same number, nothing but a hold is ever admitted for a Turn after it was settled. -/
theorem turn_finalized_on_current_evidence
    (h : Run (Step decodeStatus) (newSession grant start terminalSequence) trace s) :
    (∀ call s', Step decodeStatus s call s' →
      (∀ r envelope op, call.2.2 = .ok (.received r) → r.envelope = some envelope →
        envelope.event.event = .operation op → op.final = true →
        AdmittedOn s'.history op envelope.drainEvidence envelope.operationAuthorityGeneration) ∧
      (∀ id turn', s'.turns.lookup id = some turn' → turn'.settled = true →
        (∃ turn, s.turns.lookup id = some turn ∧ turn.settled = true) ∨
          call.2.1.Accepts decodeStatus s id)) ∧
    (∀ id pending, s.pending.lookup id = some pending → pending.operation.final = true →
      AdmittedOn s.history pending.operation pending.evidence pending.generation) ∧
    (∀ id turn, s.turns.lookup id = some turn → turn.settled = true → turn.closed = true) ∧
    (∀ number, (∀ call ∈ trace, call.2.1.Numbered number) →
      ∀ before op evidence generation outstanding after,
        s.history = before ++ .admitted op evidence generation outstanding :: after →
        op.method ≠ .hold → .settled op.turnId ∉ before) ∧
    .panicked ∉ s.history := by
  have hproper := run_proper h
  refine ⟨fun call s' hstep => ⟨?_, ?_⟩, fun id pending hid hfinal => hproper.admittedOn hid hfinal,
    hproper.closed, ?_, ?_⟩
  · intro r envelope op hout hsome hop hfinal
    have hcarries := step_carries hproper.finalsOwned hstep hout
    obtain ⟨pending, hid, rfl, hevidence, hgeneration⟩ := hcarries envelope op hsome hop
    rw [← hevidence, ← hgeneration]
    exact (step_proper hproper hstep).admittedOn hid hfinal
  · intro id turn' hturn' hsettled
    exact settled_of_moves (step_moves hproper.finalsOwned hstep) hturn' hsettled
  · intro number hnumber before op evidence generation outstanding after heq hhold
    exact (run_final h hnumber).sound before _ after heq op evidence generation outstanding rfl hhold
  · intro hmem
    obtain ⟨_, _, _, hsound⟩ := hproper.sound.of_mem hmem
    exact hsound

end Run

/-! ## A Turn that goes on after it was settled -/

namespace Demo

def grant : Grant := ⟨⟨[1], 1⟩, [2], [3], [4], 1, 1, 1, [5], 10⟩

def env : Env := ⟨⟨[3], [4], 1, [5]⟩, 0, true, [6], by decide⟩

def command (deliveryId : Bytes) (payload : Payload) : Env × Input :=
  (env, .command ⟨⟨[1], 1⟩, deliveryId, 0, payload, 1, Nat.one_pos⟩)

def event (event : Event) : Env × Input := (env, .event ⟨⟨[1], 1⟩, event⟩)

def operation (requestId : Bytes) (method : Method) : Env × Input :=
  event (.operation ⟨requestId, [9], method, [], 0⟩)

/-- A Turn is dispatched, closed, drained and settled. -/
def settleCalls : List (Env × Input) :=
  [event .ready, command [11] (.dispatch [9] 6 []),
    operation [21] .closeProcessing, command [] (.operationResult ⟨[21], .value []⟩),
    operation [22] .confirmDrain, operation [23] .finalize,
    command [] (.operationResult ⟨[23], .value (ascii "completed")⟩)]

/-- It is acknowledged under an old number, and dispatched again. -/
def repeatCalls : List (Env × Input) :=
  [command [12] (.acknowledged [9] 3), event (.deliveryResult [12] (.value [])),
    command [13] (.dispatch [9] 6 []), operation [24] .output]

def act (s : Session) (i : Env × Input) : (Env × Input × Except Error Output) × Session :=
  ((i.1, i.2, ((i.2.act some i.1).from s).1), ((i.2.act some i.1).from s).2)

theorem act_step (s : Session) (i : Env × Input) :
    Step some s (act s i).1 (act s i).2 := rfl

/-- The Turn is acknowledged under its own number and retired; then it is dispatched once more, and an
operation of it comes. Both are refused. -/
def retireCalls : List (Env × Input) :=
  [event (.deliveryResult [11] (.value [])), command [12] (.acknowledged [9] 6),
    event (.deliveryResult [12] (.value [])), command [13] (.dispatch [9] 6 []), operation [24] .output]

/-- What the session remembers of a Turn that was settled. -/
def settledHistory : List Note :=
  [.admitted ⟨[21], [9], .closeProcessing, [], 0⟩ [] 1 [], .answered [21], .drew [9] [6] 1 true true,
    .confirmed [9], .admitted ⟨[23], [9], .finalize, [], 0⟩ [6] 1 [], .settled [9], .answered [23]]

end Demo

theorem turn_finalized_on_current_evidence_demo :
    ∃ trace s, Run (Step some) (newSession Demo.grant [] 5) trace s ∧
      (∀ call ∈ trace, call.2.1.Numbered fun _ => 6) ∧ .settled [9] ∈ s.history ∧ s.turns.lookup [9] = none ∧
      ∀ before op evidence generation outstanding after,
        s.history = before ++ .admitted op evidence generation outstanding :: after →
        op.method ≠ .hold → .settled op.turnId ∉ before := by
  have hrun := run_replay Demo.act_step (newSession Demo.grant [] 5) (Demo.settleCalls ++ Demo.retireCalls)
  have hhistory : (replay Demo.act (newSession Demo.grant [] 5)
      (Demo.settleCalls ++ Demo.retireCalls)).2.history = Demo.settledHistory := by decide +kernel
  have hnumber : ∀ call ∈ (replay Demo.act (newSession Demo.grant [] 5)
      (Demo.settleCalls ++ Demo.retireCalls)).1, call.2.1.Numbered fun _ => 6 := by
    simp [replay, Demo.settleCalls, Demo.retireCalls, Demo.act, Demo.command, Demo.event, Demo.operation,
      Input.Numbered, Command.Numbered]
  refine ⟨_, _, hrun, hnumber, ?_, by decide +kernel, (turn_finalized_on_current_evidence hrun).2.2.2.1 _ hnumber⟩
  rw [hhistory]
  decide

/-- An acknowledgment under an old number makes the session forget a settled Turn above the watermark;
dispatched again, it has an operation admitted. -/
theorem settled_turn_operates_again :
    ∃ grant trace s, Run (Step some) (newSession grant [] 5) trace s ∧
      ∃ before op evidence generation outstanding after,
        s.history = before ++ .admitted op evidence generation outstanding :: after ∧
        op.method ≠ .hold ∧ .settled op.turnId ∈ before := by
  have hrun := run_replay Demo.act_step (newSession Demo.grant [] 5)
    (Demo.settleCalls ++ Demo.repeatCalls)
  have hhistory : (replay Demo.act (newSession Demo.grant [] 5)
      (Demo.settleCalls ++ Demo.repeatCalls)).2.history =
      Demo.settledHistory ++ [.admitted ⟨[24], [9], .output, [], 0⟩ [] 1 []] := by
    decide +kernel
  exact ⟨Demo.grant, _, _, hrun, Demo.settledHistory, _, _, _, _, [], hhistory, by decide, by decide⟩

end Helmr.Guest
