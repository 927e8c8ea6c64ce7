import Helmr.Lib.MapSum
import Helmr.Lib.Runs
import Helmr.Reservation.Ledger

/-!
# Reservation — exact accounting

Over the integers a sound ledger is simple: what is used is the sum of the reservations, and it is
within capacity (`Sound`). `Moves` lists everything a call can do to a sound ledger, in those terms;
each call has one triple that says which of them it does, that a failure does nothing, and what the
call promises about headroom and ceiling. That a run stays sound then follows once, from `Moves`.
-/

namespace Helmr.Reservation

open Hoare Fallible MapSum Runs

/-! ## Arithmetic of vectors -/

/-- The integer a dimension stands for. -/
def Vector.amount (v : Vector) (d : Dim) : Int := (v.get d).toInt

variable {v left right start : Vector}

theorem Vector.ext_amount {w : Vector} (h : ∀ d, v.amount d = w.amount d) : v = w :=
  Vector.ext_get fun d => Int64.toInt_inj.mp (h d)

theorem fits_iff {used capacity : Vector} :
    fits used capacity = true ↔ ∀ d, used.amount d ≤ capacity.amount d := by
  simp [fits, Vector.amount, Int64.le_iff_toInt_le]

theorem nonnegative_iff : nonnegative v = true ↔ ∀ d, 0 ≤ v.amount d := by
  simp [nonnegative, Vector.amount, Int64.le_iff_toInt_le]

/-- What a stored vector is: no dimension below zero, not all of them zero. -/
structure Vector.Valid (v : Vector) : Prop where
  nonneg : ∀ d, 0 ≤ v.amount d
  nonzero : ∃ d, 0 < v.amount d

theorem validateRequest_eq_ok {u : Unit} : validateRequest v = .ok u ↔ v.Valid := by
  unfold validateRequest
  rw [bind_eq_ok]
  simp only [reject_eq_ok, not_not, nonnegative_iff, List.any_eq_true, Dim.mem_all, true_and,
    gt_iff_lt, decide_eq_true_eq, Int64.lt_iff_toInt_lt, Int64.toInt_zero]
  constructor
  · rintro ⟨_, hnonneg, hpos⟩
    exact ⟨hnonneg, hpos⟩
  · intro h
    exact ⟨(), h.nonneg, h.nonzero⟩

/-- In one dimension, the overflow check of `add` is exact and the sum does not wrap. -/
theorem checkedAdd {l r : Int64} (hl : 0 ≤ l.toInt) :
    (¬r > Int64.maxValue - l ↔ l.toInt + r.toInt ≤ Int64.maxValue.toInt) ∧
      (l.toInt + r.toInt ≤ Int64.maxValue.toInt → (l + r).toInt = l.toInt + r.toInt) := by
  have hle := l.toInt_le
  have hge := r.le_toInt
  rw [gt_iff_lt, Int64.lt_iff_toInt_lt, Int64.toInt_sub, Int64.toInt_add]
  rw [Int64.toInt_maxValue] at *
  rw [Int.bmod_eq_of_le (by omega) (by omega)]
  refine ⟨by omega, fun h => Int.bmod_eq_of_le (by omega) (by omega)⟩

/-- `add` succeeds with the sum exactly when the sum fits. -/
theorem add_eq_ok {sum : Vector} (hleft : ∀ d, 0 ≤ left.amount d) :
    add left right = .ok sum ↔ ∀ d, sum.amount d = left.amount d + right.amount d := by
  unfold add
  rw [bind_eq_ok]
  simp only [forM_eq_ok, Dim.mem_all, forall_true_left, reject_eq_ok, exists_and_left, exists_const,
    Except.ok.injEq]
  constructor
  · rintro ⟨hfits, hsum⟩ d
    rw [← hsum]
    show ((Vector.of _).get d).toInt = _
    rw [Vector.get_of]
    exact (checkedAdd (hleft d)).2 ((checkedAdd (hleft d)).1.mp (hfits d))
  · intro hsum
    have hle : ∀ d, left.amount d + right.amount d ≤ Int64.maxValue.toInt := fun d => by
      rw [← hsum d]
      exact Int64.toInt_le _
    refine ⟨fun d => (checkedAdd (hleft d)).1.mpr (hle d), Vector.ext_amount fun d => ?_⟩
    rw [hsum d]
    show ((Vector.of _).get d).toInt = _
    rw [Vector.get_of]
    exact (checkedAdd (hleft d)).2 (hle d)

/-- The only failure of `add` is an overflow. -/
theorem add_error {e : Error} (h : add left right = .error e) : ∃ d, e = .overflow d := by
  rcases bind_eq_error.mp h with h | ⟨_, _, h⟩
  · obtain ⟨d, -, hd⟩ := exists_of_forM_error h
    exact ⟨d, (reject_eq_error.mp hd).2.symm⟩
  · cases h

theorem amount_subtract {d : Dim} (hright : 0 ≤ right.amount d) (hle : right.amount d ≤ left.amount d) :
    (subtract left right).amount d = left.amount d - right.amount d := by
  have hmax := (left.get d).toInt_le
  rw [Int64.toInt_maxValue] at hmax
  unfold Vector.amount at *
  unfold subtract
  rw [Vector.get_of, Int64.toInt_sub]
  exact Int.bmod_eq_of_le (by omega) (by omega)

/-! ## Running sums -/

/-- The sum of a dimension over entries of a map. -/
def sumOf (d : Dim) (entries : List (Sigma fun _ : Key => Vector)) : Int :=
  (entries.map fun e => e.2.amount d).sum

/-- The loop over `optional` succeeds with the sum exactly when the sum fits: the partial sums of
non-negative vectors stay below it. -/
theorem sumOptional_eq_ok {sum : Vector} {entries : List (Sigma fun _ : Key => Vector)}
    (hstart : ∀ d, 0 ≤ start.amount d) (hentries : ∀ e ∈ entries, ∀ d, 0 ≤ e.2.amount d) :
    sumOptional start entries = .ok sum ↔
      ∀ d, sum.amount d = start.amount d + sumOf d entries := by
  unfold sumOptional
  induction entries generalizing start with
  | nil =>
    simp only [List.foldlM_nil, pure_eq_ok, sumOf, List.map_nil, List.sum_nil, Int.add_zero]
    constructor
    · intro h d
      rw [h]
    · intro h
      exact (Vector.ext_amount h).symm
  | cons e rest ih =>
    have hrest : ∀ d, 0 ≤ sumOf d rest := fun d => by
      apply List.sum_nonneg
      intro x hx
      obtain ⟨e', he', rfl⟩ := List.mem_map.mp hx
      exact hentries e' (List.mem_cons_of_mem _ he') d
    rw [List.foldlM_cons, bind_eq_ok]
    simp only [sumOf, List.map_cons, List.sum_cons]
    constructor
    · intro ⟨next, hnext, hsum⟩ d
      have hstep := (add_eq_ok hstart).mp hnext
      have hpos : ∀ d, 0 ≤ next.amount d := fun d => by
        have := hentries e (by simp) d
        have := hstart d
        rw [hstep d]
        omega
      have := (ih hpos fun e' he' => hentries e' (List.mem_cons_of_mem _ he')).mp hsum d
      rw [this, hstep d, Int.add_assoc]
      rfl
    · intro hsum
      -- the first partial sum is at most the whole, which is an `int64`
      have hstep : ∀ d, (Vector.of fun d => start.get d + e.2.get d).amount d =
          start.amount d + e.2.amount d := fun d => by
        show ((Vector.of _).get d).toInt = _
        rw [Vector.get_of]
        apply (checkedAdd (hstart d)).2
        have hmax := (sum.get d).toInt_le
        have hall : (sum.get d).toInt = start.amount d + (e.2.amount d + sumOf d rest) := hsum d
        have := hrest d
        unfold Vector.amount at *
        omega
      refine ⟨_, (add_eq_ok hstart).mpr hstep, ?_⟩
      apply (ih (fun d => ?_) fun e' he' => hentries e' (List.mem_cons_of_mem _ he')).mpr
      · intro d
        rw [hstep d, hsum d, Int.add_assoc]
        rfl
      · have := hentries e (by simp) d
        have := hstart d
        rw [hstep d]
        omega

theorem sumOptional_error {entries : List (Sigma fun _ : Key => Vector)} {e : Error}
    (h : sumOptional start entries = .error e) : ∃ d, e = .overflow d := by
  unfold sumOptional at h
  induction entries generalizing start with
  | nil => cases h
  | cons x rest ih =>
    rw [List.foldlM_cons] at h
    rcases bind_eq_error.mp h with hadd | ⟨next, -, h⟩
    · exact add_error hadd
    · exact ih h

theorem sumOf_perm {d : Dim} {es es' : List (Sigma fun _ : Key => Vector)} (h : es.Perm es') :
    sumOf d es = sumOf d es' := (h.map _).sum_eq

theorem sumOf_order (order : MapOrder) (m : Reservations) (d : Dim) :
    sumOf d (order.list m) = total (·.amount d) m := sumOf_perm (order.perm m)

/-! ## Sound ledgers -/

structure Ledger.Sound (l : Ledger) : Prop where
  used_eq : ∀ d, l.used.amount d = total (·.amount d) l.reservations
  used_le : ∀ d, l.used.amount d ≤ l.capacity.amount d
  valid : Holds Vector.Valid l.reservations
  optional : SubMap l.optional l.reservations

variable {l l' : Ledger}

theorem Ledger.Sound.amounts (h : l.Sound) (d : Dim) : Holds (fun v => 0 ≤ v.amount d) l.reservations :=
  fun k v hv => (h.valid k v hv).nonneg d

theorem Ledger.Sound.used_nonneg (h : l.Sound) (d : Dim) : 0 ≤ l.used.amount d := by
  rw [h.used_eq d]
  exact total_nonneg (h.amounts d)

theorem Ledger.Sound.le_used (h : l.Sound) {k : Key} (hk : l.reservations.lookup k = some v) (d : Dim) :
    v.amount d ≤ l.used.amount d := by
  rw [h.used_eq d]
  exact le_total (h.amounts d) hk

theorem Ledger.Sound.amount_subtract (h : l.Sound) {k : Key} (hk : l.reservations.lookup k = some v)
    (d : Dim) : (subtract l.used v).amount d = l.used.amount d - v.amount d :=
  Reservation.amount_subtract ((h.valid k v hk).nonneg d) (h.le_used hk d)

/-- The entries an iteration over `optional` meets are valid vectors. -/
theorem Ledger.Sound.ordered (h : l.Sound) (order : MapOrder) :
    ∀ e ∈ order.list l.optional, ∀ d, 0 ≤ e.2.amount d := fun _ he d =>
  ((h.optional.holds h.valid).entry ((order.perm _).mem_iff.mp he)).nonneg d

theorem new_sound {capacity : Vector} (h : new capacity = .ok l) : l.Sound ∧ l.capacity = capacity := by
  unfold new at h
  obtain ⟨_, hcheck, heq⟩ := bind_eq_ok.mp h
  rw [reject_eq_ok] at hcheck
  cases heq
  simp only [not_or, Int64.le_iff_toInt_le, Int64.lt_iff_toInt_lt, Int64.toInt_zero] at hcheck
  obtain ⟨hcpu, hmemory, hdisk, hslots⟩ := hcheck
  have hzero : ∀ d, (⟨0, 0, 0, 0⟩ : Vector).amount d = 0 := fun d => by
    cases d <;> rfl
  have hcapacity : ∀ d, 0 ≤ capacity.amount d := fun d => by
    cases d <;> simp only [Vector.amount, Vector.get] <;> omega
  refine ⟨⟨hzero, fun d => ?_, fun k v hv => ?_, fun k v hv => ?_⟩, rfl⟩
  · show (⟨0, 0, 0, 0⟩ : Vector).amount d ≤ capacity.amount d
    rw [hzero d]
    exact hcapacity d
  · cases hv
  · cases hv

/-! ## What a call does -/

/-- Everything a call can do to a ledger. -/
inductive Moves (l : Ledger) : Ledger → Prop
  | same : Moves l l
  | charge {key : Key} {request next : Vector} {optional : Reservations}
      (free : l.reservations.lookup key = none) (valid : request.Valid)
      (sum : ∀ d, next.amount d = l.used.amount d + request.amount d)
      (within : ∀ d, next.amount d ≤ l.capacity.amount d)
      (class' : optional = l.optional ∨ optional = l.optional.insert key request) :
      Moves l { l with used := next, reservations := l.reservations.insert key request, optional }
  | drop {key : Key} {reserved : Vector} (held : l.reservations.lookup key = some reserved) :
      Moves l { l with
        used := subtract l.used reserved
        reservations := l.reservations.erase key
        optional := l.optional.erase key }
  | replace {key : Key} {old request next : Vector} {optional : Reservations}
      (held : l.reservations.lookup key = some old) (valid : request.Valid)
      (sum : ∀ d, next.amount d = l.used.amount d - old.amount d + request.amount d)
      (within : ∀ d, next.amount d ≤ l.capacity.amount d)
      (class' : optional = l.optional.insert key request ∨
        l.optional.lookup key = none ∧ optional = l.optional) :
      Moves l { l with used := next, reservations := l.reservations.insert key request, optional }
  | adopt {source target : Key} {reserved : Vector} (held : l.optional.lookup source = some reserved)
      (free : l.reservations.lookup target = none) :
      Moves l { l with
        reservations := (l.reservations.erase source).insert target reserved
        optional := l.optional.erase source }
  | demote {key : Key} {reserved : Vector} (held : l.reservations.lookup key = some reserved) :
      Moves l { l with optional := l.optional.insert key reserved }
  | promote {key : Key} : Moves l { l with optional := l.optional.erase key }

theorem Moves.capacity (h : Moves l l') : l'.capacity = l.capacity := by
  cases h <;> rfl

/-- **One call keeps the ledger sound.** -/
theorem Ledger.Sound.moves (h : l.Sound) (hmove : Moves l l') : l'.Sound := by
  cases hmove with
  | same => exact h
  | @charge key request next optional hfree hvalid hsum hwithin hclass =>
    refine ⟨fun d => ?_, hwithin, h.valid.insert hvalid, ?_⟩
    · show next.amount d = total _ (l.reservations.insert key request)
      rw [total_insert_new hfree, hsum d, h.used_eq d]
    · rcases hclass with rfl | rfl
      · exact h.optional.insert_new hfree
      · exact h.optional.insert
  | @drop key reserved hheld =>
    refine ⟨fun d => ?_, fun d => ?_, h.valid.erase, h.optional.erase⟩
    · show (subtract l.used reserved).amount d = total _ (l.reservations.erase key)
      rw [h.amount_subtract hheld, total_erase hheld, h.used_eq d]
    · show (subtract l.used reserved).amount d ≤ l.capacity.amount d
      have := (h.valid key reserved hheld).nonneg d
      have := h.used_le d
      rw [h.amount_subtract hheld]
      omega
  | @replace key old request next optional hheld hvalid hsum hwithin hclass =>
    refine ⟨fun d => ?_, hwithin, h.valid.insert hvalid, ?_⟩
    · show next.amount d = total _ (l.reservations.insert key request)
      rw [total_replace hheld, hsum d, h.used_eq d]
    · rcases hclass with rfl | ⟨hnone, rfl⟩
      · exact h.optional.insert
      · exact h.optional.insert_right hnone
  | @adopt source target reserved hheld hfree =>
    -- the reservation moves from one key to the other: nothing is charged
    have hsource := h.optional _ _ hheld
    have hfree' : (l.reservations.erase source).lookup target = none := by
      by_cases heq : target = source
      · rw [heq, AList.lookup_erase]
      · rw [AList.lookup_erase_ne heq, hfree]
    refine ⟨fun d => ?_, h.used_le, h.valid.erase.insert (h.valid _ _ hsource), ?_⟩
    · show l.used.amount d = total _ ((l.reservations.erase source).insert target reserved)
      rw [total_insert_new hfree', total_erase hsource, h.used_eq d]
      omega
    · exact h.optional.erase.insert_new hfree'
  | demote hheld => exact ⟨h.used_eq, h.used_le, h.valid, h.optional.insert_left hheld⟩
  | promote => exact ⟨h.used_eq, h.used_le, h.valid, h.optional.erase_left⟩

/-- There is room for `headroom` beside what is used, and the optional reservations are within
`ceiling`. -/
def Ledger.Within (l : Ledger) (ceiling headroom : Vector) : Prop :=
  ∀ d, l.used.amount d + headroom.amount d ≤ l.capacity.amount d ∧
    total (·.amount d) l.optional ≤ ceiling.amount d

/-! ## The calls -/

/-- What is known of a call: `Q` if it succeeds, and a failure leaves the ledger as it was. -/
abbrev Does {α : Type} (l : Ledger) (x : Act Error Ledger α) (Q : α → Ledger → Prop) : Prop :=
  Triple (Ambient.trivial Ledger) (fun s => s = l) x Q fun s => s = l

variable {α : Type} {Q : α → Ledger → Prop}

theorem Does.attempt {β : Type} {r : Except Error β} {f : β → Act Error Ledger α}
    (h : ∀ a, r = .ok a → Does l (f a) Q) : Does l (Hoare.attempt r >>= f) Q :=
  Triple.attempt_bind (fun _ hs => hs) h

theorem Does.locked {f : Ledger → Act Error Ledger α} (h : Does l (f l) Q) :
    Does l (Reservation.locked >>= f) Q :=
  Triple.reads_bind rfl fun a ha => by
    cases ha
    exact h

theorem Does.store {Q : Unit → Ledger → Prop} (h : Q () l') : Does l (Reservation.store l') Q :=
  Triple.effect (fun _ _ _ heq _ => by cases heq; exact h) fun _ _ _ heq _ => by cases heq

theorem Does.store_pure {a : α} (h : Q a l') :
    Does l (Reservation.store l' >>= fun _ => (Pure.pure a : Act Error Ledger α)) Q :=
  Triple.bind (Does.store (Q := fun _ s => s = l') rfl) fun _ =>
    Triple.pure fun _ _ hs => hs ▸ h

theorem Does.pure {a : α} (h : Q a l) : Does l (Pure.pure a : Act Error Ledger α) Q :=
  Triple.pure fun _ _ hs => hs ▸ h

section Calls

variable (hl : l.Sound)
include hl

theorem reserve_does (key : Key) (request : Vector) :
    Does l (reserve key request) fun _ => Moves l := by
  apply Does.attempt
  intro _ _
  apply Does.attempt
  intro _ hrequest
  apply Does.locked
  cases hkey : l.reservations.lookup key with
  | some reserved => exact Does.attempt fun _ _ => Does.pure .same
  | none =>
    apply Does.attempt
    intro next hnext
    apply Does.attempt
    intro _ hfits
    rw [reject_eq_ok, not_not] at hfits
    exact Does.store_pure (.charge hkey (validateRequest_eq_ok.mp hrequest)
      ((add_eq_ok hl.used_nonneg).mp hnext) (fits_iff.mp hfits) (.inl rfl))

omit hl in
theorem release_does (key : Key) : Does l (release key) fun _ => Moves l := by
  apply Does.attempt
  intro _ _
  apply Does.locked
  cases hkey : l.reservations.lookup key with
  | none => exact Does.pure .same
  | some reserved => exact Does.store (.drop hkey)

omit hl in
theorem amount_lessDisk {v : Vector} {bytes : Int64} (hbytes : 0 < bytes.toInt)
    (hle : bytes.toInt ≤ v.hostDiskBytes.toInt) (d : Dim) :
    (v.lessDisk bytes).amount d = v.amount d - if d = .hostDisk then bytes.toInt else 0 := by
  cases d with
  | hostDisk =>
    have hmax := v.hostDiskBytes.toInt_le
    rw [Int64.toInt_maxValue] at hmax
    show (v.hostDiskBytes - bytes).toInt = v.hostDiskBytes.toInt - _
    rw [if_pos rfl, Int64.toInt_sub]
    exact Int.bmod_eq_of_le (by omega) (by omega)
  | cpu => exact (Int.sub_zero _).symm
  | memory => exact (Int.sub_zero _).symm
  | vmSlots => exact (Int.sub_zero _).symm

theorem releaseHostDisk_does (key : Key) (bytes : Int64) :
    Does l (releaseHostDisk key bytes) fun _ => Moves l := by
  apply Does.attempt
  intro _ _
  apply Does.attempt
  intro _ hbytes
  apply Does.locked
  apply Does.attempt
  intro reserved hreserved
  apply Does.attempt
  intro _ hle
  apply Does.attempt
  intro _ hvalid
  rw [orFail_eq_ok] at hreserved
  rw [reject_eq_ok, Int64.le_iff_toInt_le, Int64.toInt_zero, Int.not_le] at hbytes
  rw [reject_eq_ok, Int64.lt_iff_toInt_lt, Int.not_lt] at hle
  have hused : bytes.toInt ≤ l.used.hostDiskBytes.toInt := hle.trans (hl.le_used hreserved .hostDisk)
  apply Does.store
  refine .replace hreserved (validateRequest_eq_ok.mp hvalid) (fun d => ?_) (fun d => ?_) ?_
  · rw [amount_lessDisk hbytes hused, amount_lessDisk hbytes hle]
    omega
  · have := hl.used_le d
    rw [amount_lessDisk hbytes hused]
    split_ifs <;> omega
  · cases hoptional : l.optional.lookup key with
    | some v => exact .inl rfl
    | none => exact .inr ⟨rfl, rfl⟩

omit hl in
theorem adoptOptional_does (source target : Key) (required : Vector) :
    Does l (adoptOptional source target required) fun _ l' => Moves l l' ∧ l'.used = l.used := by
  apply Does.attempt
  intro _ _
  apply Does.attempt
  intro _ _
  apply Does.attempt
  intro _ _
  apply Does.locked
  apply Does.attempt
  intro reserved hreserved
  apply Does.attempt
  intro _ hfree
  apply Does.attempt
  intro _ _
  rw [reject_eq_ok, Bool.not_eq_true, Option.isSome_eq_false_iff, Option.isNone_iff_eq_none] at hfree
  exact Does.store ⟨.adopt (orFail_eq_ok.mp hreserved) hfree, rfl⟩

/-- A running sum over `optional` from a valid vector is the integer sum. -/
theorem sumOptional_order (order : MapOrder) {start sum : Vector} (hstart : start.Valid)
    (h : sumOptional start (order.list l.optional) = .ok sum) (d : Dim) :
    sum.amount d = start.amount d + total (·.amount d) l.optional := by
  rw [(sumOptional_eq_ok hstart.nonneg (hl.ordered order)).mp h d, sumOf_order]

/-- A repeated request changes nothing; a new one stays within ceiling and headroom. -/
theorem reserveOptional_does (order : MapOrder) (key : Key) (request ceiling headroom : Vector) :
    Does l (reserveOptional order key request ceiling headroom) fun reserved l' =>
      Moves l l' ∧ if reserved then l'.Within ceiling headroom else l' = l := by
  apply Does.attempt
  intro _ _
  apply Does.attempt
  intro _ hrequest
  apply Does.attempt
  intro _ hpolicy
  apply Does.locked
  rw [validateRequest_eq_ok] at hrequest
  rw [reject_eq_ok, not_or, not_not, not_not, nonnegative_iff, nonnegative_iff] at hpolicy
  cases hkey : l.reservations.lookup key with
  | some reserved => exact Does.attempt fun _ _ => Does.pure ⟨.same, rfl⟩
  | none =>
    apply Does.attempt
    intro optional hoptional
    apply Does.attempt
    intro _ hceiling
    apply Does.attempt
    intro next hnext
    apply Does.attempt
    intro protected' hprotected
    apply Does.attempt
    intro _ hfits
    rw [reject_eq_ok, not_not, fits_iff] at hceiling hfits
    have hsum := (add_eq_ok hl.used_nonneg).mp hnext
    have hpos : ∀ d, 0 ≤ next.amount d := fun d => by
      have := hl.used_nonneg d
      have := hrequest.nonneg d
      rw [hsum d]
      omega
    have htotal := (add_eq_ok hpos).mp hprotected
    have hroom : ∀ d, next.amount d + headroom.amount d ≤ l.capacity.amount d := fun d => by
      rw [← htotal d]
      exact hfits d
    apply Does.store_pure
    refine ⟨.charge hkey hrequest hsum (fun d => ?_) (.inr rfl), fun d => ⟨hroom d, ?_⟩⟩
    · have := hroom d
      have := hpolicy.2 d
      omega
    · -- the key was free, so it is new to the optional part too
      have hnone : l.optional.lookup key = none := by
        cases hopt : l.optional.lookup key with
        | none => rfl
        | some v =>
          rw [hl.optional _ _ hopt] at hkey
          cases hkey
      have hcharged := hceiling d
      rw [sumOptional_order hl order hrequest hoptional] at hcharged
      show total _ (l.optional.insert key request) ≤ _
      rw [total_insert_new hnone]
      omega

/-- What the checks of a growing resize establish. -/
theorem checkGrowth_spec (order : MapOrder) {key : Key} {old request next ceiling headroom : Vector}
    {u : Unit} (hold : l.optional.lookup key = some old) (hrequest : request.Valid)
    (hnext : ∀ d, 0 ≤ next.amount d)
    (h : checkGrowth order l key request next ceiling headroom = .ok u) (d : Dim) :
    next.amount d + headroom.amount d ≤ l.capacity.amount d ∧
      total (·.amount d) l.optional - old.amount d + request.amount d ≤ ceiling.amount d := by
  unfold checkGrowth at h
  obtain ⟨optional, hoptional, h⟩ := bind_eq_ok.mp h
  obtain ⟨protected', hprotected, h⟩ := bind_eq_ok.mp h
  rw [reject_eq_ok, not_or, not_not, not_not, fits_iff, fits_iff] at h
  refine ⟨?_, ?_⟩
  · rw [← (add_eq_ok hnext).mp hprotected d]
    exact h.2 d
  · -- the entries other than the key's are the map without it
    have hperm : ((order.list l.optional).filter fun e => e.1 ≠ key).Perm
        ((l.optional.erase key).entries) := by
      have hsplit := ((order.perm l.optional).trans (perm_erase hold)).filter
        fun e : Sigma fun _ : Key => Vector => decide (e.1 ≠ key)
      rw [List.filter_cons_of_neg (by simp)] at hsplit
      refine hsplit.trans (.of_eq (List.filter_eq_self.mpr fun e he => ?_))
      have hlookup := AList.mem_lookup_iff.mpr he
      apply decide_eq_true
      intro heq
      rw [heq, AList.lookup_erase] at hlookup
      cases hlookup
    have hothers : ∀ e ∈ (order.list l.optional).filter fun e => e.1 ≠ key, ∀ d, 0 ≤ e.2.amount d :=
      fun e he => hl.ordered order e (List.mem_of_mem_filter he)
    have hsum := (sumOptional_eq_ok hrequest.nonneg hothers).mp hoptional d
    have herase : sumOf d (l.optional.erase key).entries = total (·.amount d) (l.optional.erase key) := rfl
    rw [sumOf_perm hperm, herase, total_erase hold] at hsum
    have := h.1 d
    omega

/-- Only a request that grows is checked against the ceiling. -/
theorem resizeOptional_does (order : MapOrder) (key : Key) (request ceiling headroom : Vector) :
    Does l (resizeOptional order key request ceiling headroom) fun _ l' => Moves l l' ∧
      ∀ old, l.optional.lookup key = some old → fits request old = false →
        l'.Within ceiling headroom := by
  apply Does.attempt
  intro _ _
  apply Does.attempt
  intro _ hrequest
  apply Does.attempt
  intro _ hpolicy
  apply Does.locked
  apply Does.attempt
  intro old hold
  apply Does.attempt
  intro next hnext
  apply Does.attempt
  intro _ hgrowth
  rw [validateRequest_eq_ok] at hrequest
  rw [reject_eq_ok, not_or, not_not, not_not, nonnegative_iff, nonnegative_iff] at hpolicy
  rw [orFail_eq_ok] at hold
  have hheld := hl.optional _ _ hold
  -- what is used without the reservation, and with its new amount
  have hrest : ∀ d, (subtract l.used old).amount d = l.used.amount d - old.amount d :=
    hl.amount_subtract hheld
  have hrest0 : ∀ d, 0 ≤ (subtract l.used old).amount d := fun d => by
    have := hl.le_used hheld d
    rw [hrest d]
    omega
  have hsum : ∀ d, next.amount d = l.used.amount d - old.amount d + request.amount d := fun d => by
    rw [(add_eq_ok hrest0).mp hnext d, hrest d]
  have hpos : ∀ d, 0 ≤ next.amount d := fun d => by
    have := hrest0 d
    have := hrequest.nonneg d
    have := hrest d
    rw [hsum d]
    omega
  have hshape : ∀ d, total (·.amount d) (l.optional.insert key request) =
      total (·.amount d) l.optional - old.amount d + request.amount d := fun d => total_replace hold
  apply Does.store
  refine ⟨.replace hheld hrequest hsum (fun d => ?_) (.inl rfl), fun old' hold' hgrows d => ?_⟩
  · by_cases hfits : fits request old = true
    · have := fits_iff.mp hfits d
      have := hl.used_le d
      rw [hsum d]
      omega
    · rw [if_neg hfits] at hgrowth
      have := (checkGrowth_spec hl order hold hrequest hpos hgrowth d).1
      have := hpolicy.2 d
      omega
  · rw [hold] at hold'
    cases hold'
    rw [if_neg (by simp [hgrows])] at hgrowth
    have hgrown := checkGrowth_spec hl order hold hrequest hpos hgrowth d
    exact ⟨hgrown.1, (hshape d).trans_le hgrown.2⟩

/-- What is used stays; it only counts as optional from then on. -/
theorem retainOptional_does (order : MapOrder) (key : Key) (ceiling headroom : Vector) :
    Does l (retainOptional order key ceiling headroom) fun _ l' =>
      Moves l l' ∧ l'.used = l.used ∧ l'.Within ceiling headroom := by
  apply Does.attempt
  intro _ _
  apply Does.attempt
  intro _ _
  apply Does.locked
  apply Does.attempt
  intro reserved hreserved
  apply Does.attempt
  intro _ hnone
  apply Does.attempt
  intro sum hsum
  apply Does.attempt
  intro protected' hprotected
  apply Does.attempt
  intro _ hfits
  rw [orFail_eq_ok] at hreserved
  rw [reject_eq_ok, Bool.not_eq_true, Option.isSome_eq_false_iff, Option.isNone_iff_eq_none] at hnone
  rw [reject_eq_ok, not_or, not_not, not_not, fits_iff, fits_iff] at hfits
  apply Does.store
  refine ⟨.demote hreserved, rfl, fun d => ⟨?_, ?_⟩⟩
  · show l.used.amount d + _ ≤ l.capacity.amount d
    rw [← (add_eq_ok hl.used_nonneg).mp hprotected d]
    exact hfits.2 d
  -- the sum the code takes over the map is the total, whatever the order
  · have hcharged := hfits.1 d
    rw [sumOptional_order hl order (hl.valid _ _ hreserved) hsum] at hcharged
    show total _ (l.optional.insert key reserved) ≤ _
    rw [total_insert_new hnone]
    omega

omit hl in
theorem promoteOptional_does (key : Key) :
    Does l (promoteOptional key) fun _ l' => Moves l l' ∧ l'.used = l.used := by
  apply Does.locked
  apply Does.attempt
  intro _ _
  exact Does.store ⟨.promote, rfl⟩

end Calls

/-! ## Runs -/

/-- What a call that succeeded promises beyond a sound ledger. `out` is what it returned. -/
def Call.Keeps (l : Ledger) (out : Option Bool) (l' : Ledger) : Call → Prop
  | .reserve .. | .release .. | .releaseHostDisk .. => True
  | .reserveOptional _ _ _ ceiling headroom => out = some true → l'.Within ceiling headroom
  | .resizeOptional _ key request ceiling headroom =>
    ∀ old, l.optional.lookup key = some old → fits request old = false → l'.Within ceiling headroom
  | .retainOptional _ _ ceiling headroom => l'.used = l.used ∧ l'.Within ceiling headroom
  | .adoptOptional .. | .promoteOptional _ => l'.used = l.used

theorem Does.answer {β : Type} {x : Act Error Ledger α} {g : α → β} {R : β → Ledger → Prop}
    (h : Does l x Q) (hQ : ∀ a s, Q a s → R (g a) s) :
    Does l (x >>= fun a => (Pure.pure (g a) : Act Error Ledger β)) R :=
  Triple.bind h fun a => Triple.pure fun s _ hs => hQ a s hs

/-- **One call on a sound ledger.** -/
theorem Call.does (hl : l.Sound) (call : Call) :
    Does l call.act fun out l' => Moves l l' ∧ call.Keeps l out l' := by
  cases call with
  | reserve key request => exact (reserve_does hl key request).answer fun _ _ h => ⟨h, trivial⟩
  | release key => exact (release_does key).answer fun _ _ h => ⟨h, trivial⟩
  | releaseHostDisk key bytes =>
    exact (releaseHostDisk_does hl key bytes).answer fun _ _ h => ⟨h, trivial⟩
  | reserveOptional order key request ceiling headroom =>
    apply (reserveOptional_does hl order key request ceiling headroom).answer
    intro reserved l' ⟨hmoves, hwithin⟩
    refine ⟨hmoves, fun hout => ?_⟩
    cases hout
    exact hwithin
  | resizeOptional order key request ceiling headroom =>
    exact (resizeOptional_does hl order key request ceiling headroom).answer fun _ _ h => h
  | retainOptional order key ceiling headroom =>
    exact (retainOptional_does hl order key ceiling headroom).answer fun _ _ h => h
  | adoptOptional source target required =>
    exact (adoptOptional_does source target required).answer fun _ _ h => h
  | promoteOptional key => exact (promoteOptional_does key).answer fun _ _ h => h

theorem step_moves (hl : l.Sound) {label : Call × Except Error (Option Bool)} (h : Step l label l') :
    Moves l l' := by
  obtain ⟨call, out⟩ := label
  cases out with
  | ok out => exact ((call.does hl).ok h trivial rfl).1
  | error e =>
    have heq : l' = l := (call.does hl).error h trivial rfl
    rw [heq]
    exact .same

/-- **Every reachable ledger is sound**, and its capacity is the one it was made with. -/
theorem run_sound {capacity : Vector} {l₀ : Ledger} (hnew : new capacity = .ok l₀)
    {trace : List (Call × Except Error (Option Bool))} (hrun : Run Step l₀ trace l) :
    l.Sound ∧ l.capacity = capacity := by
  apply hrun.invariant (fun l => l.Sound ∧ l.capacity = capacity) _ (new_sound hnew)
  intro t label u ht hstep
  have hmoves := step_moves ht.1 hstep
  exact ⟨ht.1.moves hmoves, hmoves.capacity.trans ht.2⟩

/-! ## The order of iteration -/

/-- The same outcome, or an overflow both times, perhaps met first in another dimension. -/
def Same (r r' : Except Error α) : Prop :=
  r = r' ∨ ∃ d d', r = .error (.overflow d) ∧ r' = .error (.overflow d')

/-- From `l` both computations have the same outcome and leave the same state. -/
def SameFrom (l : Ledger) (x y : Act Error Ledger α) : Prop :=
  Same (x.from l).1 (y.from l).1 ∧ (x.from l).2 = (y.from l).2

theorem SameFrom.refl (x : Act Error Ledger α) : SameFrom l x x := ⟨.inl rfl, rfl⟩

theorem SameFrom.attempt {β : Type} {r r' : Except Error β} {f g : β → Act Error Ledger α}
    (hr : Same r r') (h : ∀ a, r = .ok a → SameFrom l (f a) (g a)) :
    SameFrom l (Hoare.attempt r >>= f) (Hoare.attempt r' >>= g) := by
  unfold SameFrom
  rw [from_bind, from_bind, from_attempt, from_attempt]
  rcases hr with rfl | ⟨d, d', rfl, rfl⟩
  · cases r with
    | ok a => exact h a rfl
    | error e => exact ⟨.inl rfl, rfl⟩
  · exact ⟨.inr ⟨d, d', rfl, rfl⟩, rfl⟩

/-- A step that does not iterate. -/
theorem SameFrom.step {β : Type} {r : Except Error β} {f g : β → Act Error Ledger α}
    (h : ∀ a, r = .ok a → SameFrom l (f a) (g a)) :
    SameFrom l (Hoare.attempt r >>= f) (Hoare.attempt r >>= g) :=
  .attempt (.inl rfl) h

theorem SameFrom.locked {f g : Ledger → Act Error Ledger α} (h : SameFrom l (f l) (g l)) :
    SameFrom l (Reservation.locked >>= f) (Reservation.locked >>= g) := by
  unfold SameFrom Reservation.locked
  rw [from_bind, from_bind, from_reads]
  exact h

theorem SameFrom.answer {β : Type} {x y : Act Error Ledger α} (f : α → β) (h : SameFrom l x y) :
    SameFrom l (x >>= fun a => (Pure.pure (f a) : Act Error Ledger β))
      (y >>= fun a => (Pure.pure (f a) : Act Error Ledger β)) := by
  obtain ⟨hout, hstate⟩ := h
  unfold SameFrom
  rw [from_bind, from_bind]
  rcases hx : x.from l with ⟨r, s⟩
  rcases hy : y.from l with ⟨r', s'⟩
  rw [hx, hy] at hout hstate
  cases (show s = s' from hstate)
  rcases (show Same r r' from hout) with rfl | ⟨d, d', rfl, rfl⟩
  · exact ⟨.inl rfl, rfl⟩
  · exact ⟨.inr ⟨d, d', rfl, rfl⟩, rfl⟩

/-- Two orders of the same non-negative entries have the same sum, or both overflow. -/
theorem sumOptional_same {es es' : List (Sigma fun _ : Key => Vector)} (hstart : ∀ d, 0 ≤ start.amount d)
    (hes : ∀ e ∈ es, ∀ d, 0 ≤ e.2.amount d) (hperm : es.Perm es') :
    Same (sumOptional start es) (sumOptional start es') := by
  have hes' : ∀ e ∈ es', ∀ d, 0 ≤ e.2.amount d := fun e he => hes e (hperm.mem_iff.mpr he)
  have hiff : ∀ sum, sumOptional start es = .ok sum ↔ sumOptional start es' = .ok sum := fun sum => by
    rw [sumOptional_eq_ok hstart hes, sumOptional_eq_ok hstart hes']
    simp only [sumOf_perm hperm]
  cases h : sumOptional start es with
  | ok sum => exact .inl ((hiff sum).mp h).symm
  | error e =>
    cases h' : sumOptional start es' with
    | ok sum =>
      rw [(hiff sum).mpr h'] at h
      cases h
    | error e' =>
      obtain ⟨d, rfl⟩ := sumOptional_error h
      obtain ⟨d', rfl⟩ := sumOptional_error h'
      exact .inr ⟨d, d', rfl, rfl⟩

/-- The same call with its iteration in another order. -/
def Call.reordered (order : MapOrder) : Call → Call
  | .reserveOptional _ key request ceiling headroom =>
    .reserveOptional order key request ceiling headroom
  | .resizeOptional _ key request ceiling headroom => .resizeOptional order key request ceiling headroom
  | .retainOptional _ key ceiling headroom => .retainOptional order key ceiling headroom
  | call => call

theorem MapOrder.perm_list (order order' : MapOrder) (m : Reservations) :
    (order.list m).Perm (order'.list m) := (order.perm m).trans (order'.perm m).symm

section Orders

variable (hl : l.Sound)
include hl

theorem reserveOptional_same (order order' : MapOrder) (key : Key) (request ceiling headroom : Vector) :
    SameFrom l (reserveOptional order key request ceiling headroom)
      (reserveOptional order' key request ceiling headroom) := by
  refine .step fun _ _ => .step fun _ hrequest => .step fun _ _ => .locked ?_
  cases l.reservations.lookup key with
  | some reserved => exact SameFrom.refl _
  | none =>
    apply SameFrom.attempt
    · exact sumOptional_same (validateRequest_eq_ok.mp hrequest).nonneg (hl.ordered order)
        (order.perm_list order' _)
    · intro _ _
      exact SameFrom.refl _

theorem checkGrowth_same (order order' : MapOrder) (key : Key) {request : Vector}
    (hrequest : request.Valid) (next ceiling headroom : Vector) :
    Same (checkGrowth order l key request next ceiling headroom)
      (checkGrowth order' l key request next ceiling headroom) := by
  have hsame := sumOptional_same hrequest.nonneg
    (fun e he => hl.ordered order e (List.mem_of_mem_filter he))
    ((order.perm_list order' l.optional).filter fun e => e.1 ≠ key)
  unfold checkGrowth
  rcases hsame with heq | ⟨d, d', heq, heq'⟩
  · rw [heq]
    exact .inl rfl
  · rw [heq, heq']
    exact .inr ⟨d, d', rfl, rfl⟩

theorem resizeOptional_same (order order' : MapOrder) (key : Key) (request ceiling headroom : Vector) :
    SameFrom l (resizeOptional order key request ceiling headroom)
      (resizeOptional order' key request ceiling headroom) := by
  refine .step fun _ _ => .step fun _ hrequest => .step fun _ _ => .locked ?_
  refine .step fun old _ => .step fun next _ => ?_
  apply SameFrom.attempt
  · split
    · exact .inl rfl
    · exact checkGrowth_same hl order order' key (validateRequest_eq_ok.mp hrequest) next ceiling headroom
  · intro _ _
    exact SameFrom.refl _

theorem retainOptional_same (order order' : MapOrder) (key : Key) (ceiling headroom : Vector) :
    SameFrom l (retainOptional order key ceiling headroom)
      (retainOptional order' key ceiling headroom) := by
  refine .step fun _ _ => .step fun _ _ => .locked (.step fun reserved hreserved => .step fun _ _ => ?_)
  apply SameFrom.attempt
  · exact sumOptional_same (hl.valid _ _ (orFail_eq_ok.mp hreserved)).nonneg (hl.ordered order)
      (order.perm_list order' _)
  · intro _ _
    exact SameFrom.refl _

theorem Call.reordered_same (order : MapOrder) (call : Call) :
    SameFrom l call.act (call.reordered order).act := by
  cases call with
  | reserveOptional order' key request ceiling headroom =>
    exact (reserveOptional_same hl order' order key request ceiling headroom).answer some
  | resizeOptional order' key request ceiling headroom =>
    exact (resizeOptional_same hl order' order key request ceiling headroom).answer fun _ => none
  | retainOptional order' key ceiling headroom =>
    exact (retainOptional_same hl order' order key ceiling headroom).answer fun _ => none
  | reserve key request => exact SameFrom.refl _
  | release key => exact SameFrom.refl _
  | releaseHostDisk key bytes => exact SameFrom.refl _
  | adoptOptional source target required => exact SameFrom.refl _
  | promoteOptional key => exact SameFrom.refl _

end Orders

/-! ## Main result -/

/-- **The ledger never over-commits and accounts exactly.** In every ledger reached from a new one by
any calls, what is used is the sum of the reservations in every dimension and lies between zero and
the capacity; the optional reservations are reservations; every stored vector is non-negative and not
zero. A call that fails changes nothing; one that succeeds keeps what `Call.Keeps` says; and the order
in which a call iterates over the optional reservations changes neither its effect nor whether it
overflows. -/
theorem ledger_accounts {capacity : Vector} {l₀ : Ledger} (hnew : new capacity = .ok l₀)
    {trace : List (Call × Except Error (Option Bool))} (hrun : Run Step l₀ trace l) :
    (∀ d, l.used.amount d = total (·.amount d) l.reservations) ∧
    (∀ d, 0 ≤ l.used.amount d ∧ l.used.amount d ≤ capacity.amount d) ∧
    (∀ key v, l.optional.lookup key = some v → l.reservations.lookup key = some v) ∧
    (∀ key v, l.reservations.lookup key = some v → (∀ d, 0 ≤ v.amount d) ∧ ∃ d, v.amount d ≠ 0) ∧
    ∀ call out l', Step l (call, out) l' →
      (∀ e, out = .error e → l' = l) ∧
      (∀ b, out = .ok b → call.Keeps l b l') ∧
      ∀ order, SameFrom l call.act (call.reordered order).act := by
  obtain ⟨hsound, hcapacity⟩ := run_sound hnew hrun
  refine ⟨hsound.used_eq, fun d => ⟨hsound.used_nonneg d, hcapacity ▸ hsound.used_le d⟩,
    hsound.optional, fun key v hv => ?_, fun call out l' hstep => ⟨?_, ?_, ?_⟩⟩
  · obtain ⟨hnonneg, d, hpos⟩ := hsound.valid key v hv
    exact ⟨hnonneg, d, by omega⟩
  · intro e he
    subst he
    exact (call.does hsound).error hstep trivial rfl
  · intro b hb
    subst hb
    exact ((call.does hsound).ok hstep trivial rfl).2
  · intro order
    exact Call.reordered_same hsound order call

/-- Iteration in the order the map is stored in. -/
def storedOrder : MapOrder := ⟨fun m => m.entries, fun _ => .refl _⟩

def demoKey : Key := ⟨[0x76, 0x6D], 1, [0x61]⟩

def demoCapacity : Vector := ⟨8, 8, 8, 8⟩

def demoLedger : Ledger := ⟨demoCapacity, ⟨0, 0, 0, 0⟩, ∅, ∅⟩

/-- One unit of everything, with the whole capacity as ceiling and no headroom. -/
def demoReserve : Call := .reserveOptional storedOrder demoKey ⟨1, 1, 1, 1⟩ demoCapacity ⟨0, 0, 0, 0⟩

def otherKey : Key := ⟨[0x76, 0x6D], 2, [0x62]⟩

def demoResize (request : Vector) : Call := .resizeOptional storedOrder demoKey request demoCapacity ⟨0, 0, 0, 0⟩

/-- Two reservations, of which one grows as long as there is room and the other is released. -/
theorem ledger_accounts_demo : ∃ l, Run Step demoLedger
    [(demoReserve, .ok (some true)), (.reserve otherKey ⟨5, 5, 5, 5⟩, .ok (some true)),
      (demoResize ⟨3, 3, 3, 3⟩, .ok none), (demoResize ⟨4, 4, 4, 4⟩, .error .capacityExceeded),
      (.release otherKey, .ok none)] l
    ∧ total (·.amount .cpu) l.reservations = 3 ∧ l.used.amount .cpu = 3 ∧ 3 ≤ demoCapacity.amount .cpu := by
  have hcall {trace : List (Call × Except Error (Option Bool))} {l : Ledger} (hrun : Run Step demoLedger trace l)
      (call : Call) (out : Except Error (Option Bool)) (hout : (call.act.from l).1 = out) :
      Run Step demoLedger (trace ++ [(call, out)]) (call.act.from l).2 := hrun.snoc (Prod.ext hout rfl)
  have hreserved := hcall .nil demoReserve (.ok (some true)) (by decide +kernel)
  have hother := hcall hreserved (.reserve otherKey ⟨5, 5, 5, 5⟩) (.ok (some true)) (by decide +kernel)
  have hgrown := hcall hother (demoResize ⟨3, 3, 3, 3⟩) (.ok none) (by decide +kernel)
  have hfull := hcall hgrown (demoResize ⟨4, 4, 4, 4⟩) (.error .capacityExceeded) (by decide +kernel)
  have hrun := hcall hfull (.release otherKey) (.ok none) (by decide +kernel)
  obtain ⟨hsum, hbounds, -⟩ := ledger_accounts (show new demoCapacity = .ok demoLedger from rfl) hrun
  have hused := hsum .cpu
  have hbound := (hbounds .cpu).2
  rw [hused] at hbound
  generalize hl : ((Call.release otherKey).act.from _).2 = l at *
  have htotal : total (·.amount .cpu) l.reservations = 3 := by
    rw [← hl]
    decide +kernel
  rw [htotal] at hused hbound
  exact ⟨l, hrun, htotal, hused, hbound⟩

/-- A repeated `ReserveOptional` of what is already reserved succeeds without a look at its ceiling
and headroom: here the headroom is the whole capacity, of which one unit is used. -/
theorem reserveOptional_repeated :
    ∃ l l' : Ledger, Run Step demoLedger [(demoReserve, .ok (some true))] l ∧
      Step l (.reserveOptional storedOrder demoKey ⟨1, 1, 1, 1⟩ ⟨0, 0, 0, 0⟩ demoCapacity,
        .ok (some false)) l' ∧
      ¬l'.Within ⟨0, 0, 0, 0⟩ demoCapacity := by
  refine ⟨(demoReserve.act.from demoLedger).2, (demoReserve.act.from demoLedger).2,
    .snoc .nil ?_, ?_, fun h => ?_⟩
  · exact Prod.ext rfl rfl
  · exact Prod.ext rfl rfl
  · exact absurd (h .cpu).1 (by decide)

end Helmr.Reservation
