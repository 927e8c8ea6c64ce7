import Helmr.Guest.Handling

/-!
# Guest — input reaches the process at most once

A delivery is remembered until its Turn is retired, and forgotten then. What keeps it from being forwarded
again is different in the two times: before, its entry among the deliveries; after, that the Turn is gone:
it is not owned, and the watermark has reached its number, so it is never owned again (`Gone.step`).
`Remembers` says that one of the two holds of everything that was forwarded; `Remembers.pass` and
`Remembers.take_fresh` are the two kinds of steps behind `Remembers.step`. The host has to number a Turn the
same way in dispatches and acknowledgments, and not to use a delivery id for two commands (`Orderly`).
-/

namespace Helmr.Guest

open Wire FiniteMap Runs

/-! ## What is asked of the host -/

/-- Turns have one number, and delivery ids one command. -/
def Orderly (number : Bytes → Int) (content : Bytes → Command) : Handling → Prop
  | .call _ (.command c) _ =>
    (∀ turnId sequence body, c.payload = .dispatch turnId sequence body → sequence = number turnId) ∧
      (∀ turnId sequence, c.payload = .acknowledged turnId sequence → sequence = number turnId) ∧
      (c.delivered → content c.deliveryId = c)
  | _ => True

/-- The command belongs to the execution of the Turn. -/
def Command.feeds (c : Command) (turnId : Bytes) : Prop :=
  (∃ sequence body, c.payload = .dispatch turnId sequence body) ∨
    (∃ body, c.payload = .message turnId body) ∨ ∃ body, c.payload = .reconcile turnId body

variable {c : Command} {turnId : Bytes} {t : Session}

theorem Command.feeds.delivered (h : c.feeds turnId) : c.delivered := by
  rcases h with ⟨_, _, h⟩ | ⟨_, h⟩ | ⟨_, h⟩ <;> simp [Command.delivered, h]

theorem Command.feeds.turnId_eq (h : c.feeds turnId) : c.turnId = turnId := by
  rcases h with ⟨_, _, h⟩ | ⟨_, h⟩ | ⟨_, h⟩ <;> simp [Command.turnId, h]

/-! ## The invariant -/

/-- The Turn is not owned, and cannot be dispatched again. -/
def Gone (number : Bytes → Int) (s : Session) (turnId : Bytes) : Prop :=
  s.turns.lookup turnId = none ∧ number turnId ≤ s.terminalSequence

structure Remembers (number : Bytes → Int) (content : Bytes → Command) (trace : List Handling)
    (s : Session) : Prop where
  numbered : ∀ id d turnId sequence, s.deliveries.lookup id = some d →
    d.payload = .acknowledged turnId sequence → sequence = number turnId
  fed : ∀ l ∈ trace, ∀ c turnId, Forwards c l → c.feeds turnId →
    content c.deliveryId = c ∧ (s.deliveries.lookup c.deliveryId = some c ∨ Gone number s turnId)
  once : trace.Pairwise fun l l' => ∀ c c' turnId turnId', Forwards c l → Forwards c' l' →
    c.feeds turnId → c'.feeds turnId' → c.deliveryId ≠ c'.deliveryId

variable {decodeStatus : Bytes → Option Bytes} {number : Bytes → Int} {content : Bytes → Command}
  {s s' : Session} {trace : List Handling} {l : Handling}

/-- A Turn that is gone can only be taken by a dispatch above the watermark. -/
theorem Gone.mono (h : Gone number s turnId) (hturns : s.turns.lookup turnId = none → s'.turns.lookup turnId = none)
    (hle : s.terminalSequence ≤ s'.terminalSequence) : Gone number s' turnId :=
  ⟨hturns h.1, h.2.trans hle⟩

theorem Gone.kept (h : Gone number s turnId) (hkept : Kept s s') : Gone number s' turnId := by
  refine h.mono (fun hnone => ?_) (le_of_eq hkept.terminalSequence.symm)
  have hturns := hkept.turns turnId
  rw [hnone] at hturns
  exact Option.map_eq_none_iff.mp hturns

/-- The Turn an admitted command feeds is not gone. -/
theorem Admitted.not_gone (h : Admitted s c t)
    (hnumber : ∀ turnId sequence body, c.payload = .dispatch turnId sequence body → sequence = number turnId)
    (hfeeds : c.feeds turnId) : ¬Gone number s turnId := by
  rintro ⟨hnone, hle⟩
  rcases hfeeds with ⟨sequence, body, hpayload⟩ | ⟨body, hpayload⟩ | ⟨body, hpayload⟩
  · cases h with
    | dispatch payload _ _ above =>
      rw [hpayload] at payload
      cases payload
      rw [hnumber _ _ _ hpayload] at above
      omega
    | _ => simp_all
  · cases h with
    | message payload _ owned =>
      rw [hpayload] at payload
      cases payload
      rw [hnone] at owned
      cases owned
    | _ => simp_all
  · cases h with
    | reconcile payload owned =>
      rw [hpayload] at payload
      cases payload
      rw [hnone] at owned
      cases owned
    | _ => simp_all

/-- Admitting a command does not bring a Turn back. -/
theorem Gone.admission (hgone : Gone number s turnId) (h : Admitted s c t)
    (hnumber : ∀ turnId sequence body, c.payload = .dispatch turnId sequence body →
      sequence = number turnId) : Gone number t turnId := by
  have hnot : ¬c.feeds turnId := fun hfeeds => h.not_gone hnumber hfeeds hgone
  cases h with
  | @dispatch turnId' body sequence payload _ _ _ =>
    have hne : turnId ≠ turnId' := fun heq => hnot (.inl ⟨sequence, body, heq ▸ payload⟩)
    refine hgone.mono (fun hnone => ?_) (le_refl _)
    show (s.dispatched turnId' sequence).turns.lookup turnId = none
    unfold Session.dispatched
    dsimp only
    split
    · exact hnone
    · exact (AList.lookup_insert_ne hne).trans hnone
  | control _ _ kept => exact Gone.kept (s := s.controlled c _) ⟨hgone.1, hgone.2⟩ kept
  | _ => exact hgone

/-- **A Turn that is gone stays gone.** -/
theorem Gone.step (hgone : Gone number s turnId) (hstep : Handles decodeStatus s l s')
    (horderly : Orderly number content l) : Gone number s' turnId := by
  cases handles_handled hstep with
  | quiet kept => exact hgone.kept kept
  | hold kept => exact Gone.kept (s := s.hold) ⟨hgone.1, hgone.2⟩ kept
  | deliver _ _ admission =>
    have hgone' := hgone.admission admission horderly.1
    exact ⟨hgone'.1, hgone'.2⟩
  | closed => exact hgone
  | @refused _ c _ _ _ _ kept => exact Gone.kept (s := s.controlled c []) ⟨hgone.1, hgone.2⟩ kept
  | @rejected _ c _ _ _ _ _ _ kept =>
    exact Gone.kept (s := { s with controlSequence := c.controlSequence }) ⟨hgone.1, hgone.2⟩ kept
  | @receipt _ _ id outcome d _ _ _ _ _ kept =>
    exact Gone.kept (s := s.receipted id d outcome) ⟨hgone.1, hgone.2⟩ kept
  | @controlReceipt _ _ id outcome d _ _ _ _ _ kept =>
    exact Gone.kept (s := { s.receipted id d outcome with deliveries := s.deliveries.erase id })
      ⟨hgone.1, hgone.2⟩ kept
  | retire _ _ retired =>
    refine hgone.mono (fun hnone => ?_) ?_
    · rw [retired.turns, Option.eq_none_iff_forall_ne_some]
      intro turn hturn
      have hturn' : s.turns.lookup turnId = some turn := (lookup_erase_eq_some.mp hturn).2
      rw [hnone] at hturn'
      cases hturn'
    · rw [retired.terminalSequence]
      exact le_max_left _ _

theorem Gone.run (h : Run (Handles decodeStatus) s trace s') (hgone : Gone number s turnId)
    (horderly : ∀ l ∈ trace, Orderly number content l) : Gone number s' turnId :=
  h.invariant_of (Orderly number content) (Gone number · turnId)
    (fun _ _ _ hl ht hstep => ht.step hstep hl) hgone horderly

/-- A step that forwards nothing new and forgets only what is gone. -/
theorem Remembers.pass (h : Remembers number content trace s) (hstep : Handles decodeStatus s l s')
    (horderly : Orderly number content l) (hsilent : ∀ c, Forwards c l → ¬c.delivered)
    (hnumbered : ∀ id d turnId sequence, s'.deliveries.lookup id = some d →
      d.payload = .acknowledged turnId sequence → sequence = number turnId)
    (hkeep : ∀ c turnId, c.feeds turnId → s.deliveries.lookup c.deliveryId = some c →
      s'.deliveries.lookup c.deliveryId = some c ∨ Gone number s' turnId) :
    Remembers number content (trace ++ [l]) s' where
  numbered := hnumbered
  fed l' hl' c turnId hforwards hfeeds := by
    rcases List.mem_append.mp hl' with hold | hnew
    · obtain ⟨hcontent, hlisted | hgone⟩ := h.fed l' hold c turnId hforwards hfeeds
      · exact ⟨hcontent, hkeep c turnId hfeeds hlisted⟩
      · exact ⟨hcontent, .inr (hgone.step hstep horderly)⟩
    · cases List.mem_singleton.mp hnew
      exact absurd hfeeds.delivered (hsilent c hforwards)
  once := by
    refine List.pairwise_append.mpr ⟨h.once, List.pairwise_singleton _ _, fun l₁ _ l₂ hl₂ => ?_⟩
    cases List.mem_singleton.mp hl₂
    intro c c' turnId turnId' _ hforwards _ hfeeds
    exact absurd hfeeds.delivered (hsilent c' hforwards)

/-- The same where the deliveries do not change. -/
theorem Remembers.same (h : Remembers number content trace s) (hstep : Handles decodeStatus s l s')
    (horderly : Orderly number content l) (hsilent : ∀ c, Forwards c l → ¬c.delivered)
    (hdeliveries : s'.deliveries = s.deliveries) : Remembers number content (trace ++ [l]) s' := by
  apply h.pass hstep horderly hsilent
  · rw [hdeliveries]
    exact h.numbered
  · intro c turnId _ hlisted
    rw [hdeliveries]
    exact .inl hlisted

theorem numbered_of_deliver (h : Remembers number content trace s) (ht : t.deliveries = s.deliveries)
    (hnumber : ∀ turnId sequence, c.payload = .acknowledged turnId sequence → sequence = number turnId) :
    ∀ id d turnId sequence, (t.deliver c).deliveries.lookup id = some d →
      d.payload = .acknowledged turnId sequence → sequence = number turnId := by
  intro id d turnId sequence hid hpayload
  rcases lookup_insert_eq_some.mp hid with ⟨_, rfl⟩ | ⟨_, hid'⟩
  · exact hnumber turnId sequence hpayload
  · rw [ht] at hid'
    exact h.numbered id d turnId sequence hid' hpayload

/-- A new delivery is listed beside the others. -/
theorem listed_of_deliver {d : Command} (ht : t.deliveries = s.deliveries)
    (hfresh : s.deliveries.lookup c.deliveryId = none) (hlisted : s.deliveries.lookup d.deliveryId = some d) :
    (t.deliver c).deliveries.lookup d.deliveryId = some d := by
  have hne : d.deliveryId ≠ c.deliveryId := fun heq => by
    rw [heq, hfresh] at hlisted
    cases hlisted
  show (t.deliveries.insert c.deliveryId c).lookup d.deliveryId = some d
  rw [AList.lookup_insert_ne hne, ht]
  exact hlisted

theorem Admitted.deliveries (h : Admitted s c t) : t.deliveries = s.deliveries := by
  cases h with
  | control _ _ kept => exact kept.deliveries
  | _ => rfl

/-- A new delivery. If one of the same id was forwarded before, it was this command, and its Turn is gone:
then it is not admitted. -/
theorem Remembers.take_fresh (h : Remembers number content trace s) {env : Env}
    (hstep : Handles decodeStatus s (.call env (.command c) (.ok (.sent true))) (t.deliver c))
    (horderly : Orderly number content (.call env (.command c) (.ok (.sent true))))
    (hfresh : s.deliveries.lookup c.deliveryId = none) (hadmission : Admitted s c t) :
    Remembers number content (trace ++ [.call env (.command c) (.ok (.sent true))]) (t.deliver c) where
  numbered := numbered_of_deliver h hadmission.deliveries horderly.2.1
  fed l' hl' d turnId hforwards hfeeds := by
    rcases List.mem_append.mp hl' with hold | hnew
    · obtain ⟨hcontent, hlisted | hgone⟩ := h.fed l' hold d turnId hforwards hfeeds
      · exact ⟨hcontent, .inl (listed_of_deliver hadmission.deliveries hfresh hlisted)⟩
      · exact ⟨hcontent, .inr (hgone.step hstep horderly)⟩
    · cases List.mem_singleton.mp hnew
      cases hforwards
      exact ⟨horderly.2.2 hfeeds.delivered, .inl (AList.lookup_insert _)⟩
  once := by
    refine List.pairwise_append.mpr ⟨h.once, List.pairwise_singleton _ _, fun l₁ hl₁ l₂ hl₂ => ?_⟩
    cases List.mem_singleton.mp hl₂
    intro d c' turnId turnId' hbefore hnow hfeeds hfeeds' heq
    cases hnow
    obtain ⟨hcontent, hlisted | hgone⟩ := h.fed l₁ hl₁ d turnId hbefore hfeeds
    · rw [heq, hfresh] at hlisted
      cases hlisted
    · have hsame : d = c := by
        rw [← hcontent, heq]
        exact horderly.2.2 hfeeds'.delivered
      subst hsame
      exact hadmission.not_gone horderly.1 hfeeds hgone

/-- **Every step keeps the invariant.** -/
theorem Remembers.step (h : Remembers number content trace s) (hstep : Handles decodeStatus s l s')
    (horderly : Orderly number content l) : Remembers number content (trace ++ [l]) s' := by
  cases handles_handled hstep with
  | quiet kept _ silent => exact h.same hstep horderly silent kept.deliveries
  | hold kept _ silent => exact h.same hstep horderly (fun c hc => absurd hc (silent c)) kept.deliveries
  | deliver _ fresh admission => exact h.take_fresh hstep horderly fresh admission
  | closed payload _ fresh =>
    apply h.pass hstep horderly (fun _ hc => absurd hc id)
    · exact numbered_of_deliver h rfl horderly.2.1
    · exact fun c turnId _ hlisted => .inl (listed_of_deliver rfl fresh hlisted)
  | refused _ _ kept => exact h.same hstep horderly (fun _ hc => absurd hc id) kept.deliveries
  | rejected _ _ _ kept => exact h.same hstep horderly (fun _ hc => absurd hc id) kept.deliveries
  | receipt _ _ _ kept => exact h.same hstep horderly (fun _ hc => absurd hc id) kept.deliveries
  | @controlReceipt _ _ key _ d control _ _ found payload kept =>
    apply h.pass hstep horderly (fun _ hc => absurd hc id)
    · intro id d turnId sequence hid
      rw [kept.deliveries] at hid
      exact h.numbered id d turnId sequence (lookup_erase_eq_some.mp hid).2
    · -- the forgotten delivery is a control
      intro c turnId hfeeds hlisted
      left
      rw [kept.deliveries]
      refine lookup_erase_eq_some.mpr ⟨fun heq => ?_, hlisted⟩
      rw [heq, found] at hlisted
      cases hlisted
      rcases hfeeds with ⟨_, _, hpayload⟩ | ⟨_, hpayload⟩ | ⟨_, hpayload⟩ <;>
        simp [payload] at hpayload
  | @retire _ _ _ _ _ retiredId sequence _ _ found payload retired =>
    apply h.pass hstep horderly (fun _ hc => absurd hc id)
    · intro id d turnId sequence hid
      rw [retired.deliveries] at hid
      exact h.numbered id d turnId sequence (lookup_keep_eq_some.mp hid).1
    · intro c turnId hfeeds hlisted
      by_cases heq : turnId = retiredId
      · right
        refine ⟨?_, ?_⟩
        · rw [retired.turns, heq]
          exact AList.lookup_erase _ _
        · rw [retired.terminalSequence, heq, ← h.numbered _ _ _ _ found payload]
          exact le_max_right _ _
      · left
        rw [retired.deliveries]
        refine lookup_keep_eq_some.mpr ⟨hlisted, ?_⟩
        rw [hfeeds.turnId_eq]
        simpa using heq

theorem Remembers.of_run {grant : Grant} {start : Bytes} {terminalSequence : Int}
    (h : Run (Handles decodeStatus) (newSession grant start terminalSequence) trace s)
    (horderly : ∀ l ∈ trace, Orderly number content l) : Remembers number content trace s := by
  induction h with
  | nil => exact ⟨(fun _ _ _ _ hid => nomatch hid), (fun _ hl => nomatch hl), .nil⟩
  | snoc _ hlast ih =>
    have hremembers := ih fun l hl => horderly l (List.mem_append_left _ hl)
    exact hremembers.step hlast (horderly _ (by simp))

/-- The Turn of a confirmed acknowledgment is gone: it is not owned, and the watermark has reached its number. -/
theorem Remembers.gone_of_retires (h : Remembers number content trace s) (hstep : Handles decodeStatus s l s')
    (hretires : Retires s turnId l) : Gone number s' turnId := by
  obtain ⟨id, outcome, d, sequence, found, payload, retired⟩ := (handles_handled hstep).of_retires hretires
  constructor
  · rw [retired.turns]
    exact AList.lookup_erase _ _
  · rw [retired.terminalSequence, ← h.numbered _ _ _ _ found payload]
    exact le_max_right _ _

/-- A forwarded dispatch is above the watermark, and its Turn is not gone. -/
theorem dispatch_of_forwards {body : Bytes} {sequence : Int} (hstep : Handles decodeStatus s l s')
    (horderly : Orderly number content l) (hforwards : Forwards c l)
    (hpayload : c.payload = .dispatch turnId sequence body) :
    s.terminalSequence < sequence ∧ ¬Gone number s turnId := by
  have hfeeds : c.feeds turnId := .inl ⟨sequence, body, hpayload⟩
  obtain ⟨env, t, rfl, -, -, admission⟩ := (handles_handled hstep).of_forwards hforwards hfeeds.delivered
  refine ⟨?_, admission.not_gone horderly.1 hfeeds⟩
  cases admission with
  | dispatch payload _ _ above =>
    cases payload.symm.trans hpayload
    exact above
  | _ => simp_all

/-- **Input reaches the process at most once.** In every run of a host that numbers each Turn one way and
uses each delivery id for one command: no two steps forward a dispatch, message or reconciliation under one
delivery id; a forwarded dispatch is above the watermark; and none is forwarded for a Turn that was
retired before. -/
theorem input_forwarded_once {grant : Grant} {start : Bytes} {terminalSequence : Int}
    (h : Run (Handles decodeStatus) (newSession grant start terminalSequence) trace s)
    (horderly : ∀ l ∈ trace, Orderly number content l) :
    (trace.Pairwise fun l l' => ∀ c c' turnId turnId', Forwards c l → Forwards c' l' →
      c.feeds turnId → c'.feeds turnId' → c.deliveryId ≠ c'.deliveryId) ∧
    ∀ before l after t u, trace = before ++ l :: after →
      Run (Handles decodeStatus) (newSession grant start terminalSequence) before t →
      Handles decodeStatus t l u →
      ∀ c turnId sequence body, Forwards c l → c.payload = .dispatch turnId sequence body →
        t.terminalSequence < sequence ∧
        ∀ first retirement between v w, before = first ++ retirement :: between →
          Run (Handles decodeStatus) (newSession grant start terminalSequence) first v →
          Handles decodeStatus v retirement w → Run (Handles decodeStatus) w between t →
          ¬Retires v turnId retirement := by
  refine ⟨(Remembers.of_run h horderly).once, ?_⟩
  intro before l after t u htrace _ hstep c turnId sequence body hforwards hpayload
  have horderly' : ∀ l' ∈ before ++ [l], Orderly number content l' := fun l' hl' =>
    horderly l' (by
      rw [htrace]
      simp only [List.mem_append, List.mem_cons] at hl' ⊢
      tauto)
  obtain ⟨habove, hnot⟩ := dispatch_of_forwards hstep (horderly' l (by simp)) hforwards hpayload
  refine ⟨habove, ?_⟩
  intro first retirement between v w hbefore hfirst hretirement hbetween hretires
  have horderly'' : ∀ l' ∈ first ++ retirement :: between, Orderly number content l' :=
    fun l' hl' => horderly' l' (by rw [hbefore]; exact List.mem_append_left _ hl')
  -- were it retired before, it would be gone in all later states
  have hremembers : Remembers number content first v :=
    Remembers.of_run hfirst fun l' hl' => horderly'' l' (List.mem_append_left _ hl')
  have hgone := hremembers.gone_of_retires hretirement hretires
  exact hnot (hgone.run hbetween fun l' hl' => horderly'' l' (by simp [hl']))

namespace Demo

def dispatch : Command := ⟨⟨[1], 1⟩, [11], 0, .dispatch [9] 6 [], 1, Nat.one_pos⟩

/-- The Turn is settled and acknowledged, the dispatch sent again before it is retired, and once more after. -/
def repeatDispatch : List Input := acknowledgeCalls ++ [receipt [12], .command dispatch]

def contentOf (id : Bytes) : Command :=
  if id = [12] then ⟨⟨[1], 1⟩, [12], 0, .acknowledged [9] 6, 1, Nat.one_pos⟩ else dispatch

end Demo

theorem input_forwarded_once_demo :
    ∃ trace s, Run (Handles some) Demo.opened trace s ∧
      (∀ l ∈ trace, Orderly (fun _ => 6) Demo.contentOf l) ∧ (∃ l ∈ trace, Forwards Demo.dispatch l) ∧
      s.turns.lookup [9] = none ∧ s.terminalSequence = 6 ∧
      trace.Pairwise fun l l' => ∀ c c' turnId turnId', Forwards c l → Forwards c' l' →
        c.feeds turnId → c'.feeds turnId' → c.deliveryId ≠ c'.deliveryId := by
  have hrun := run_replay Demo.handle_handles Demo.opened Demo.repeatDispatch
  have horderly : ∀ l ∈ (replay Demo.handle Demo.opened Demo.repeatDispatch).1,
      Orderly (fun _ => 6) Demo.contentOf l := by
    simp [replay, Demo.repeatDispatch, Demo.acknowledgeCalls, Demo.settleCalls, Demo.handle, Demo.command, Demo.event,
      Demo.operation, Demo.acknowledgment, Demo.receipt, Demo.dispatch, Demo.contentOf, Orderly, Command.delivered]
    exact fun _ _ _ _ h _ => h.symm
  refine ⟨_, _, hrun, horderly, ?_, by decide +kernel, by decide +kernel, (input_forwarded_once hrun horderly).1⟩
  refine ⟨_, List.mem_cons_of_mem _ List.mem_cons_self, ?_⟩
  rfl

end Helmr.Guest
