import Helmr.Disk.VersionDevice

/-!
# Disk — a request is applied as a prefix

The mutations a call of the device makes lie end to end from the offset of its request (`Tiles`), and spell
the first `total` bytes of it. The invariant of a call (`DeviceInv`) says so of every state: before a piece is
admitted the locals stand where the mutations end (`Progress`), and only an admitted piece moves them
(`Progress.advance`). While a piece is under way its caller is in that write (`Engaged.step`) and comes out of it
with what was asked for (`Engaged.returned`). `device_step` is one step, of the call or of anyone beside it, and
`device_applies_prefix` a whole call.
-/

namespace Helmr.Disk

open Wire BlockFormat Fallible Hoare Runs WritableVersion

/-! ## Ranges end to end -/

/-- Each range starts where the one before it ends. -/
def Tiles : Nat → List (Nat × Bytes) → Prop
  | _, [] => True
  | o, m :: ms => m.1 = o ∧ Tiles (o + m.2.length) ms

theorem Tiles.snoc {o : Nat} {ms : List (Nat × Bytes)} (h : Tiles o ms) {m : Nat × Bytes}
    (hm : m.1 = o + (ms.flatMap Prod.snd).length) : Tiles o (ms ++ [m]) := by
  induction ms generalizing o with
  | nil => exact ⟨by simpa using hm, trivial⟩
  | cons x xs ih =>
    refine ⟨h.1, ih h.2 ?_⟩
    rw [hm, List.flatMap_cons, List.length_append, Nat.add_assoc]

theorem applied_tiles {o : Nat} {ms : List (Nat × Bytes)} (h : Tiles o ms) (c : Content) :
    applied c ms = splice c o (ms.flatMap Prod.snd) := by
  induction ms generalizing o c with
  | nil => simp [applied]
  | cons x xs ih =>
    have hrest : applied c (x :: xs) = applied (splice c x.1 x.2) xs := rfl
    rw [hrest, ih h.2, h.1, splice_splice, List.flatMap_cons]

/-! ## Requests -/

theorem length_data (r : Request) : r.data.length = r.length.toNat := by
  cases r with
  | write p => simp [Request.data, Request.length]
  | trim n => simp [Request.data, Request.length]

theorem data_first (r : Request) {n : Nat} (h : n ≤ r.data.length) : (r.first n).data = r.data.take n := by
  cases r with
  | write p => rfl
  | trim l =>
    simp only [Request.data, List.length_replicate] at h
    simp [Request.first, Request.data, h]

theorem data_rest (r : Request) (n : Nat) : (r.rest n).data = r.data.drop n := by
  cases r with
  | write p => rfl
  | trim l =>
    simp only [Request.rest, Request.data, List.drop_replicate]
    congr 1
    omega

theorem rest_rest (r : Request) (m n : Nat) : (r.rest m).rest n = r.rest (m + n) := by
  cases r with
  | write p => simp [Request.rest]
  | trim l => simp [Request.rest, sub_sub]

theorem rest_zero (r : Request) : r.rest 0 = r := by
  cases r <;> simp [Request.rest]

/-! ## The write of the device -/

/-- A caller is in a write of `r` at `off`. -/
def Engaged {R : Type} (r : Request) (off : Int) : Thread R → Prop
  | .writing r' off' | .loading r' off' .. => r' = r ∧ off' = off
  | _ => False

section Writes

variable {R : Type} {cfg : Config R} {s s' : System R} {i : Nat} {r : Request} {off : Int}

theorem Engaged.update {f : Nat → Thread R} {j : Nat} {t : Thread R} (h : Engaged r off (f i))
    (hself : j = i → Engaged r off t) : Engaged r off (Function.update f j t i) := by
  by_cases hj : i = j
  · rw [hj, Function.update_self]
    exact hself hj.symm
  · rwa [Function.update_of_ne hj]

/-- Until it returns, nothing takes a caller out of its write. -/
theorem Engaged.step {l : Label} (h : Engaged r off (s.threads i)) (hstep : Step cfg s l s')
    (hl : ∀ offset data outcome, l ≠ .writeReturned i offset data outcome) : Engaged r off (s'.threads i) := by
  -- a step of this caller starts from a place of its write
  have hplace : ∀ {j : Nat} {t t' : Thread R}, s.threads j = t → (Engaged r off t → Engaged r off t') →
      Engaged r off (Function.update s.threads j t' i) := fun hj hnext =>
    h.update fun heq => hnext (hj ▸ heq ▸ h)
  cases hstep with
  | readRefused | creditDeleted | recount => exact h
  | writeFirstDone hi hrun | writeFirstFailed hi hrun | writeReadFailed hi | writeSecond hi hfresh hrun =>
    exact h.update fun heq => absurd rfl (heq ▸ hl _ _ _)
  | writeFetches hi | loadBlock hi | loadFailed hi | writeStale hi => exact hplace hi id
  | writeCalled r' offset' hi => exact hplace hi False.elim
  | _ hi => exact hplace hi False.elim

/-- A write returns what was asked of it. -/
theorem Engaged.returned (h : Engaged r off (s.threads i)) {offset : Int} {data : Bytes}
    {outcome : Result Int} (hstep : Step cfg s (.writeReturned i offset data outcome) s') :
    offset = off ∧ data = r.data ∧ s'.threads i = .idle ∧ ∀ n, outcome = .ok n → n = r.length := by
  cases hstep with
  | @writeFirstDone _ r' offset' ctx n d hi hrun =>
    rw [hi] at h
    obtain ⟨rfl, rfl⟩ := h
    refine ⟨rfl, rfl, System.threads_move_self .., ?_⟩
    rintro n' ⟨⟩
    exact (Commits.counted (writeFirst_commits.of_from hrun)).length
  | writeFirstFailed hi hrun | writeReadFailed hi =>
    rw [hi] at h
    obtain ⟨rfl, rfl⟩ := h
    exact ⟨rfl, rfl, System.threads_move_self .., nofun⟩
  | @writeSecond _ r' offset' tree generation blocks ctx ctx' outcome d hi hfresh hrun =>
    rw [hi] at h
    obtain ⟨rfl, rfl⟩ := h
    refine ⟨rfl, rfl, System.threads_move_self .., ?_⟩
    rintro n' rfl
    exact (writeLocked_commits.of_from hrun).counted.length

end Writes

/-! ## The invariant of a call -/

def Event.mutation : Event → Option (Nat × Bytes)
  | mine l | others l => l.mutation

/-- The mutation of the call itself. -/
def Event.own : Event → Option (Nat × Bytes)
  | mine l => l.mutation
  | others _ => none

/-- The range lies in one block. -/
def WithinBlock (m : Nat × Bytes) : Prop := m.1 % 4096 + m.2.length ≤ 4096

/-- The mutations spell the first `total` bytes of the request. -/
structure Spelled (r : Request) (off : Int) (own : List (Nat × Bytes)) (count : Nat) : Prop where
  total : count ≤ r.data.length
  tiles : Tiles off.toNat own
  spells : own.flatMap Prod.snd = r.data.take count
  pieces : ∀ m ∈ own, WithinBlock m ∨ own = [(off.toNat, r.data)]

/-- How far a call has come: unless it has returned, its locals stand behind what is spelled. -/
structure Progress (r : Request) (off : Int) (own : List (Nat × Bytes)) (d : Device) : Prop
    extends Spelled r off own d.total where
  here : (∃ err, d.place = .returned err) ∨ d.b = r.rest d.total ∧ d.off = off + d.total ∧
    (∀ m ∈ own, WithinBlock m)
  fresh : d.place = .start ∨ d.place = .inWhole → d.total = 0 ∧ own = []
  more : d.place = .inWhole ∨ d.place = .inPiece ∨ d.place = .inFlush ∨ d.place = .retry ∨ d.place = .inRetry →
    d.b.length > 0
  complete : d.place = .returned none → d.total = r.data.length

section Call

variable {r : Request} {off : Int} {own : List (Nat × Bytes)} {d : Device}

theorem Progress.call (r : Request) (off : Int) : Progress r off [] (Device.call r off) :=
  ⟨⟨Nat.zero_le _, trivial, by simp [Device.call], by simp⟩,
    .inr ⟨(rest_zero r).symm, by simp [Device.call], by simp⟩, fun _ => ⟨rfl, rfl⟩, by simp [Device.call], nofun⟩

variable (h : Progress r off own d)
include h

/-- A call returns where it stands, and without an error only behind the request. -/
theorem Progress.returned {err : Option DeviceError} (hcomplete : err = none → d.total = r.data.length) :
    Progress r off own { d with place := .returned err } where
  toSpelled := h.toSpelled
  here := .inl ⟨_, rfl⟩
  fresh heq := by rcases heq with heq | heq <;> cases heq
  more heq := by rcases heq with heq | heq | heq | heq | heq <;> cases heq
  complete heq := hcomplete (Place.returned.inj heq)

theorem Progress.fails (e : DeviceError) : Progress r off own { d with place := .returned (some e) } :=
  h.returned nofun

/-- The whole request is admitted at once. -/
theorem Progress.whole (hplace : d.place = .inWhole) {n : Int} (hn : n = d.b.length) :
    Progress r off (own ++ [(d.off.toNat, d.b.data)]) (d.afterWhole (.ok n)) ∧ d.b.data ≠ [] := by
  have hd : ∀ err, d.place ≠ .returned err := fun err heq => by rw [hplace] at heq; cases heq
  obtain ⟨hb, ho, -⟩ := h.here.resolve_left fun ⟨err, heq⟩ => hd err heq
  obtain ⟨hzero, rfl⟩ := h.fresh (.inr hplace)
  have hpos := h.more (.inl hplace)
  rw [hzero, rest_zero] at hb
  rw [hzero, Nat.cast_zero, add_zero] at ho
  have htotal : n.toNat = r.data.length := by rw [hn, hb, length_data]
  rw [List.nil_append, hb, ho]
  refine ⟨⟨⟨htotal.le, ⟨rfl, trivial⟩, ?_, fun m hm => .inr rfl⟩, .inl ⟨_, rfl⟩, nofun, nofun, fun _ => htotal⟩, ?_⟩
  · show [(off.toNat, r.data)].flatMap Prod.snd = r.data.take n.toNat
    rw [htotal]
    simp
  · intro hnil
    have hlen := length_data r
    rw [hnil, ← hb, List.length_nil] at hlen
    omega

variable (hd : ∀ err, d.place ≠ .returned err)
include hd

/-- The place moves on, the locals stay. -/
theorem Progress.goes {place : Place} (hfresh : place = .start ∨ place = .inWhole → d.place = .start)
    (hmore : place ≠ .loop ∧ place ≠ .waiting → d.b.length > 0) (hplace : ∀ err, place ≠ .returned err) :
    Progress r off own { d with place } where
  toSpelled := h.toSpelled
  here := h.here.elim (fun ⟨err, heq⟩ => absurd heq (hd err)) .inr
  fresh heq := h.fresh (.inl (hfresh heq))
  more heq := hmore (by rcases heq with heq | heq | heq | heq | heq <;> (cases heq; simp))
  complete heq := absurd heq (hplace _)

theorem Progress.settle (pressure : Bool) (e : Error) : Progress r off own (d.settle pressure e) := by
  cases pressure with
  | false => exact h.fails _
  | true => exact h.goes hd (by simp) (by simp) (by simp)

/-- The loop ends behind the request. -/
theorem Progress.finishes (hdone : ¬ d.b.length > 0) : Progress r off own { d with place := .returned none } := by
  refine h.returned fun _ => ?_
  obtain ⟨hb, -, -⟩ := h.here.resolve_left fun ⟨err, heq⟩ => hd err heq
  have hlen := length_data d.b
  have htotal := h.total
  rw [hb, data_rest, List.length_drop, ← hb] at hlen
  omega

/-- An admitted piece. -/
theorem Progress.advance (hoff : 0 ≤ off) (hmore : d.b.length > 0) :
    Progress r off (own ++ [(d.off.toNat, d.piece.data)]) d.advance ∧ d.piece.data ≠ [] := by
  obtain ⟨hb, ho, hwithin⟩ := h.here.resolve_left fun ⟨err, heq⟩ => hd err heq
  have hlen := length_data d.b
  have hdata : d.b.data = r.data.drop d.total := by rw [hb, data_rest]
  have hrest : d.b.data.length = r.data.length - d.total := by rw [hdata, List.length_drop]
  have hmod := Int.emod_nonneg d.off (show (4096 : Int) ≠ 0 by decide)
  have hmod' := Int.emod_lt_of_pos d.off (show (0 : Int) < 4096 by decide)
  have hn : 0 < d.n ∧ d.n ≤ d.b.data.length ∧ (d.n : Int) ≤ 4096 - d.off % 4096 := by
    unfold Device.n
    omega
  -- the piece is the next `n` bytes of the request, up to the end of a block
  have hpiece : d.piece.data = (r.data.drop d.total).take d.n := by
    rw [Device.piece, data_first _ hn.2.1, hdata]
  have hplen : d.piece.data.length = d.n := by
    rw [hpiece, List.length_take, List.length_drop]
    omega
  have htotal := h.total
  have hspelled : (own.flatMap Prod.snd).length = d.total := by
    rw [h.spells, List.length_take]
    omega
  have hblock : WithinBlock (d.off.toNat, d.piece.data) := by
    show d.off.toNat % 4096 + d.piece.data.length ≤ 4096
    rw [hplen]
    omega
  have hall : ∀ m ∈ own ++ [(d.off.toNat, d.piece.data)], WithinBlock m := fun m hm => by
    rcases List.mem_append.1 hm with hm | hm
    · exact hwithin m hm
    · rw [List.mem_singleton.1 hm]
      exact hblock
  refine ⟨⟨⟨?_, h.tiles.snoc ?_, ?_, fun m hm => .inl (hall m hm)⟩, .inr ⟨?_, ?_, hall⟩, nofun, nofun, nofun⟩, ?_⟩
  · show d.total + d.n ≤ _
    omega
  · rw [hspelled]
    show d.off.toNat = _
    omega
  · rw [List.flatMap_append, h.spells, List.flatMap_singleton, hpiece]
    exact (List.take_add ..).symm
  · show d.b.rest d.n = r.rest (d.total + d.n)
    rw [hb, rest_rest]
  · show d.off + d.n = off + ((d.total + d.n : Nat) : Int)
    rw [ho]
    push_cast
    ring
  · intro hnil
    rw [hnil] at hplen
    exact absurd hplen (by simp; omega)

theorem Progress.afterWhole_error (e : Error) : Progress r off own (d.afterWhole (.error e)) := by
  show Progress r off own (if _ then _ else _)
  split
  · exact h.fails _
  · exact h.goes hd (by simp) (by simp) (by simp)

theorem Progress.afterRetry_error (e : Error) : Progress r off own (d.afterRetry (.error e)) :=
  h.settle hd _ e

theorem Progress.afterPiece_error (hmore : d.b.length > 0) (e : Error) :
    Progress r off own (d.afterPiece (.error e)) := by
  unfold Device.afterPiece
  split
  · exact h.goes hd (by simp) (fun _ => hmore) (by simp)
  · exact h.afterRetry_error hd e

end Call

section Runs

variable {R : Type} {cfg : Config R} {i : Nat} {r : Request} {off : Int} {c : Content}

structure DeviceInv (cfg : Config R) (i : Nat) (r : Request) (off : Int) (c : Content) (trace : List Event)
    (x : System R × Device) : Prop where
  inv : Inv cfg x.1
  engaged : ∀ w, x.2.writing = some w → Engaged w x.2.off (x.1.threads i)
  free : x.2.writing = none → (x.1.threads i).writes = false
  progress : Progress r off (trace.filterMap Event.own) x.2
  content : x.1.content cfg = applied c (trace.filterMap Event.mutation)

/-- A step of the call that leaves the content alone. -/
theorem DeviceInv.silent {trace : List Event} {s s' : System R} {d d' : Device} {l : Label}
    (h : DeviceInv cfg i r off c trace (s, d)) (hl : l.mutation = none) (hinv : Inv cfg s')
    (hcontent : s'.content cfg = s.content cfg)
    (hengaged : ∀ w, d'.writing = some w → Engaged w d'.off (s'.threads i))
    (hfree : d'.writing = none → (s'.threads i).writes = false)
    (hprogress : Progress r off (trace.filterMap Event.own) d') :
    DeviceInv cfg i r off c (trace ++ [.mine l]) (s', d') := by
  have hown : (trace ++ [Event.mine l]).filterMap Event.own = trace.filterMap Event.own := by
    rw [filterMap_snoc, Event.own, hl, Option.toList_none, List.append_nil]
  have hall : (trace ++ [Event.mine l]).filterMap Event.mutation = trace.filterMap Event.mutation := by
    rw [filterMap_snoc, Event.mutation, hl, Option.toList_none, List.append_nil]
  exact ⟨hinv, hengaged, hfree, hown ▸ hprogress, hall ▸ hcontent.trans h.content⟩

/-- The device moves between two writes. -/
theorem DeviceInv.rests {trace : List Event} {s : System R} {d u : Device}
    (h : DeviceInv cfg i r off c trace (s, d)) (hd : d.writing = none) (hu : u.writing = none)
    (hprogress : Progress r off (trace.filterMap Event.own) u) :
    DeviceInv cfg i r off c (trace ++ [.mine .internal]) (s, u) :=
  h.silent rfl h.inv rfl (fun _ hw => absurd (hu.symm.trans hw) (by simp)) (fun _ => h.free hd) hprogress

/-- A write of the call starts. -/
theorem DeviceInv.calls {trace : List Event} {s : System R} {d u : Device} {w : Request}
    (h : DeviceInv cfg i r off c trace (s, d)) (hidle : s.threads i = .idle) (hw : u.writing = some w)
    (hprogress : Progress r off (trace.filterMap Event.own) u) :
    DeviceInv cfg i r off c (trace ++ [.mine .internal]) (s.move i (.writing w u.off) s.shared, u) := by
  have hmoved : Step cfg s .internal (s.move i (.writing w u.off) s.shared) := .writeCalled _ _ hidle
  refine h.silent rfl (step_content h.inv hmoved).1 rfl (fun w' hw' => ?_) (fun hnone => ?_) hprogress
  · cases hw.symm.trans hw'
    rw [System.threads_move_self]
    exact ⟨rfl, rfl⟩
  · cases hw.symm.trans hnone

/-- A write of the call returns. -/
theorem DeviceInv.returns {trace : List Event} {s s' : System R} {d d' : Device} {w : Request} {offset : Int}
    {data : Bytes} {outcome : Result Int} (h : DeviceInv cfg i r off c trace (s, d)) (hw : d.writing = some w)
    (hstep : Step cfg s (.writeReturned i offset data outcome) s') (hd : d'.writing = none)
    (hok : ∀ n, outcome = .ok n → n = w.length → Progress r off
      (trace.filterMap Event.own ++ [(d.off.toNat, w.data)]) d' ∧ w.data ≠ [])
    (herr : ∀ e, outcome = .error e → Progress r off (trace.filterMap Event.own) d') :
    DeviceInv cfg i r off c (trace ++ [.mine (.writeReturned i offset data outcome)]) (s', d') := by
  obtain ⟨rfl, rfl, hidle, hlength⟩ := (h.engaged w hw).returned hstep
  obtain ⟨hinv, heffect⟩ := step_content h.inv hstep
  refine ⟨hinv, fun w' hw' => ?_, fun _ => ?_, ?_, ?_⟩
  · rw [hd] at hw'
    cases hw'
  · show (s'.threads i).writes = false
    rw [hidle]
    rfl
  · rw [filterMap_snoc]
    cases outcome with
    | error e => simpa [Event.own, Label.mutation] using herr e rfl
    | ok n =>
      obtain ⟨hprogress, hne⟩ := hok n rfl (hlength n rfl)
      simpa [Event.own, Label.mutation, hne] using hprogress
  · rw [filterMap_snoc, applied_append, ← h.content]
    exact heffect.applied_eq

theorem writing_settle (d : Device) (pressure : Bool) (e : Error) : (d.settle pressure e).writing = none := by
  cases pressure <;> rfl

theorem writing_afterRetry (d : Device) (outcome : Result Int) : (d.afterRetry outcome).writing = none := by
  cases outcome with
  | ok n => rfl
  | error e => exact writing_settle d _ e

theorem writing_afterPiece (d : Device) (outcome : Result Int) : (d.afterPiece outcome).writing = none := by
  unfold Device.afterPiece
  split
  · rfl
  · exact writing_afterRetry d outcome

theorem writing_afterWhole (d : Device) (outcome : Result Int) : (d.afterWhole outcome).writing = none := by
  cases outcome with
  | ok n => rfl
  | error e =>
    show (if _ then _ else _ : Device).writing = none
    split <;> rfl

/-- **One step** of a call, or of anyone beside it. -/
theorem device_step (hoff : 0 ≤ off) {trace : List Event} {x x' : System R × Device} {e : Event}
    (h : DeviceInv cfg i r off c trace x) (hstep : DeviceStep cfg i x e x') :
    DeviceInv cfg i r off c (trace ++ [e]) x' := by
  have hgoing : ∀ {d : Device} {place : Place}, d.place = place → (∀ err, place ≠ .returned err) →
      ∀ err, d.place ≠ .returned err := fun heq hne err herr => hne err (heq.symm.trans herr)
  cases hstep with
  -- anyone else, or a step of the write in progress: the locals do not move
  | @inner s s' d l hstep hl hstart =>
    obtain ⟨hinv, heffect⟩ := step_content h.inv hstep
    refine ⟨hinv, fun w hw => (h.engaged w hw).step hstep hl, fun hw => ?_, ?_, ?_⟩
    · by_contra hwrites
      rw [Bool.not_eq_false] at hwrites
      exact absurd (h.free hw) (by rw [hstart hwrites]; decide)
    · rw [filterMap_snoc]
      simpa [Event.own] using h.progress
    · rw [filterMap_snoc, applied_append, ← h.content]
      exact heffect.applied_eq
  | skipsWhole hplace _ | wakes hplace =>
    exact h.rests (by simp [Device.writing, hplace]) rfl
      (h.progress.goes (hgoing hplace (by simp)) (by simp) (by simp) (by simp))
  -- a write starts; its request is the whole one or the next piece
  | @callsWhole s d hplace hwhole hidle =>
    refine h.calls (u := { d with place := .inWhole }) hidle rfl
      (h.progress.goes (hgoing hplace (by simp)) (fun _ => hplace) (fun _ => ?_) (by simp))
    have := Int.emod_lt_of_pos d.off (show (0 : Int) < 4096 by decide)
    simp only [Device.triesWhole, decide_eq_true_eq] at hwhole
    show d.b.length > 0
    omega
  | @returnsWhole s s' d offset data outcome hplace hstep =>
    refine h.returns (w := d.b) (by simp [Device.writing, hplace]) hstep (writing_afterWhole d outcome) ?_ ?_
    · rintro n rfl hn
      exact h.progress.whole hplace hn
    · rintro e rfl
      exact h.progress.afterWhole_error (hgoing hplace (by simp)) e
  | @callsPiece s d hplace hmore hidle =>
    rw [show d.atHead = { d with place := .inPiece } from if_pos hmore]
    exact h.calls (u := { d with place := .inPiece }) hidle rfl
      (h.progress.goes (hgoing hplace (by simp)) (by simp) (fun _ => hmore) (by simp))
  | @finishes s d hplace hdone =>
    rw [show d.atHead = { d with place := .returned none } from if_neg hdone]
    exact h.rests (by simp [Device.writing, hplace]) rfl (h.progress.finishes (hgoing hplace (by simp)) hdone)
  | @returnsPiece s s' d offset data outcome hplace hstep =>
    have hd := hgoing hplace (by simp)
    have hmore := h.progress.more (by simp [hplace])
    refine h.returns (w := d.piece) (by simp [Device.writing, hplace]) hstep (writing_afterPiece d outcome) ?_ ?_
    · rintro n rfl hn
      exact h.progress.advance hd hoff hmore
    · rintro e rfl
      exact h.progress.afterPiece_error hd hmore e
  -- a full buffer is flushed, and the piece tried once more
  | @flushes s d outcome hplace hidle =>
    have hd := hgoing hplace (by simp)
    have hrests := fun u => h.rests (u := u) (by simp [Device.writing, hplace])
    cases outcome with
    | ok u =>
      exact hrests _ rfl (h.progress.goes hd (by simp) (fun _ => h.progress.more (by simp [hplace])) (by simp))
    | error failure => exact hrests _ (writing_settle ..) (h.progress.settle hd _ _)
  | @callsRetry s d hplace hidle =>
    exact h.calls (u := { d with place := .inRetry }) hidle rfl
      (h.progress.goes (hgoing hplace (by simp)) (by simp) (fun _ => h.progress.more (by simp [hplace])) (by simp))
  | @returnsRetry s s' d offset data outcome hplace hstep =>
    have hd := hgoing hplace (by simp)
    refine h.returns (w := d.piece) (by simp [Device.writing, hplace]) hstep (writing_afterRetry d outcome) ?_ ?_
    · rintro n rfl hn
      exact h.progress.advance hd hoff (h.progress.more (by simp [hplace]))
    · rintro e rfl
      exact h.progress.afterRetry_error hd e
  | refusedWhole hplace _ =>
    exact h.rests (by simp [Device.writing, hplace]) (writing_afterWhole ..)
      (h.progress.afterWhole_error (hgoing hplace (by simp)) _)
  | refusedPiece hplace hmore =>
    exact h.rests (by simp [Device.writing, hplace]) (writing_afterPiece ..)
      (h.progress.afterPiece_error (hgoing hplace (by simp)) hmore _)
  | refusedRetry hplace =>
    exact h.rests (by simp [Device.writing, hplace]) (writing_afterRetry ..)
      (h.progress.afterRetry_error (hgoing hplace (by simp)) _)
  | cancels hplace => exact h.rests (by simp [Device.writing, hplace]) rfl (h.progress.fails _)

/-- **A request is applied as a prefix.** However the admissions, flushes and waits of a call turn out and
whatever other callers do, when the call has returned its mutations lie end to end from the offset of the
request and spell its first `total` bytes, all of them if it returns nil; each is a piece of one block, or the
whole request. The content is the old one with the mutations applied, so that where nobody else wrote it is
the old one with that prefix of the request at its offset. -/
theorem device_applies_prefix (cfg : Config R) {root : R} {stagedBytes : Int} {before : List Label}
    {s s' : System R} (hreached : Run (Step cfg) (System.opened root stagedBytes) before s) {i : Nat}
    (hidle : s.threads i = .idle) (r : Request) {off : Int} (hoff : 0 ≤ off) {trace : List Event} {d : Device}
    (hrun : Run (DeviceStep cfg i) (s, Device.call r off) trace (s', d)) {err : Option DeviceError}
    (hreturned : d.place = .returned err) :
    d.total ≤ r.data.length ∧ (err = none → d.total = r.data.length)
      ∧ Tiles off.toNat (trace.filterMap Event.own)
      ∧ (trace.filterMap Event.own).flatMap Prod.snd = r.data.take d.total
      ∧ (∀ m ∈ trace.filterMap Event.own,
          WithinBlock m ∨ trace.filterMap Event.own = [(off.toNat, r.data)])
      ∧ s'.content cfg = applied (s.content cfg) (trace.filterMap Event.mutation)
      ∧ ((∀ l, Event.others l ∈ trace → l.mutation = none) →
          s'.content cfg = splice (s.content cfg) off.toNat (r.data.take d.total)) := by
  have hinv : Inv cfg s :=
    hreached.invariant (Inv cfg) (fun _ _ _ h hstep => (step_content h hstep).1) (Inv.opened root stagedBytes)
  have hcall : DeviceInv cfg i r off (s.content cfg) [] (s, Device.call r off) :=
    ⟨hinv, nofun, fun _ => by simp [hidle, Thread.writes], Progress.call r off, rfl⟩
  have h := hrun.along (DeviceInv cfg i r off (s.content cfg)) (fun _ _ _ _ h hstep => device_step hoff h hstep) hcall
  refine ⟨h.progress.total, ?_, h.progress.tiles, h.progress.spells, h.progress.pieces, h.content, fun halone => ?_⟩
  · rintro rfl
    exact h.progress.complete hreturned
  · have hown : trace.filterMap Event.mutation = trace.filterMap Event.own := by
      refine List.filterMap_congr fun e he => ?_
      cases e with
      | mine l => rfl
      | others l => exact halone l he
    rw [← h.progress.spells, ← applied_tiles h.progress.tiles, ← hown]
    exact h.content

end Runs

/-! ## A run -/

/-- Two blocks of sevens, with room for one dirty block. -/
def demoSevens : Config Unit := { demoDisk with denotes := fun _ _ => 7, limit := 1 }

/-- The first critical section of a trim. -/
def demoTrim (d : WritableVersion Unit) (length off : Int) : Result (Int ⊕ List Nat) × WritableVersion Unit :=
  Act.from (writeFirst demoSevens (.trim length) off fun _ => .ok ()) d

/-- The version behind the first block of the trim. -/
def demoTrimmed : WritableVersion Unit := (demoTrim (System.opened () 0).shared 4096 0).2

/-- A trim of both blocks is refused as a whole. Its first piece is admitted, its second finds the buffer full, and
the flush fails: the first block is zeros, the second is as it was. -/
theorem device_applies_prefix_demo : ∃ trace s d err,
    Run (DeviceStep demoSevens 0) (System.opened () 0, Device.call (.trim 8192) 0) trace (s, d)
      ∧ d.place = .returned (some err) ∧ trace.filterMap Event.own = [(0, List.replicate 4096 0)]
      ∧ s.content demoSevens = splice ((System.opened () 0).content demoSevens) 0 (List.replicate 4096 0) := by
  have hwhole : demoTrim (System.opened () 0).shared 8192 0
      = (.error errVersionBufferFull, (System.opened () 0).shared) := rfl
  have hfirst : demoTrim (System.opened () 0).shared 4096 0 = (.ok (.inl 4096), demoTrimmed) := rfl
  have hsecond : demoTrim demoTrimmed 4096 4096 = (.error errVersionBufferFull, demoTrimmed) := rfl
  have hcalled : Run (DeviceStep demoSevens 0) (System.opened () 0, Device.call (.trim 8192) 0) [] _ := .nil
  have hrefused := (hcalled.snoc (.callsWhole rfl (by decide) rfl)).snoc
    (.returnsWhole rfl (.writeFirstFailed (System.threads_move_self ..) hwhole))
  have hadmitted := (hrefused.snoc (.callsPiece rfl (by decide) (System.threads_move_self ..))).snoc
    (.returnsPiece rfl (.writeFirstDone (System.threads_move_self ..) hfirst))
  have hfull := (hadmitted.snoc (.callsPiece rfl (by decide) (System.threads_move_self ..))).snoc
    (.returnsPiece rfl (.writeFirstFailed (System.threads_move_self ..) hsecond))
  have hrun := hfull.snoc (.flushes (.error (false, errClosed)) rfl (System.threads_move_self ..))
  obtain ⟨-, -, -, -, -, -, hcontent⟩ := device_applies_prefix demoSevens .nil rfl (.trim 8192) le_rfl hrun rfl
  refine ⟨_, _, _, _, hrun, rfl, rfl, (hcontent fun l hl => ?_).trans ?_⟩
  · simp only [List.nil_append, List.cons_append, List.mem_cons, List.not_mem_nil, or_false, reduceCtorEq] at hl
  · exact congrArg (splice _ 0) (List.take_replicate ..)

end Helmr.Disk
