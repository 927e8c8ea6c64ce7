import Helmr.Filepack.Decode

/-!
# Filepack — decoding is bounded

A record is accepted when its chunk starts at or after the end of the last one, on a chunk boundary, and no field
of it wraps (`checkDataRecord_spec`). So every accepted record leaves fewer chunks for those that follow: `Trace`
counts the writes by how far they reach, and `Trace.snoc` adds one. `decodeRecord_outcome` is a round of the loop,
and `decodeRecords_outcome` the whole of it: the count bounds the rounds on any stream, endless ones included, and so
the fuel. `readFilepackHeader_outcome` is about what comes before.
-/

namespace Helmr.Filepack

open Wire Fallible Hoare

variable {ε : Type}

/-! ## One record -/

/-- What an accepted record says. Its fields are read exactly, and nothing computed from them wraps. -/
structure Checked (logicalSize nextOffset : Int64) (header : Bytes) (r : DataRecord) : Prop where
  offset : r.offset.toInt = beNat (slice header 0 8)
  rawSize : r.rawSize.toInt = beNat (slice header 8 4)
  compressedSize : r.compressedSize.toInt = beNat (slice header 12 8)
  rest : (logicalSize - r.offset).toInt = logicalSize.toInt - r.offset.toInt
  next : (r.offset + r.rawSize).toInt = r.offset.toInt + r.rawSize.toInt
  ordered : nextOffset.toInt ≤ r.offset.toInt
  aligned : r.offset.toInt % 4194304 = 0
  chunk : r.rawSize.toInt = min 4194304 (logicalSize.toInt - r.offset.toInt)
  nonempty : 0 < r.rawSize.toInt
  encoded : 0 < r.compressedSize.toInt ∧ r.compressedSize.toInt ≤ 4194560

theorem beNat_slice_lt (b : Bytes) (pos len : Nat) : beNat (slice b pos len) < 256 ^ len :=
  lt_of_lt_of_le (beNat_lt _) (Nat.pow_le_pow_right (by decide) (List.length_take_le _ _))

theorem toInt_ofNat {n : Nat} (h : n < 2 ^ 63) : (Int64.ofNat n).toInt = n := Int64.toInt_ofNat_of_lt h

/-- A field that does not fit reads as a negative number. -/
theorem lt_of_ofNat_nonneg {n : Nat} (hn : n < 2 ^ 64) (h : 0 ≤ (Int64.ofNat n).toInt) : n < 2 ^ 63 := by
  rw [Int64.toInt_ofNat', show Int64.size = 2 ^ 64 from rfl, Int.bmod_def] at h
  split at h <;> omega

theorem toInt_sub_of_le {a b : Int64} (hb : 0 ≤ b.toInt) (h : b.toInt ≤ a.toInt) :
    (a - b).toInt = a.toInt - b.toInt := by
  have hmax := a.toInt_le
  rw [Int64.toInt_maxValue] at hmax
  rw [Int64.toInt_sub]
  exact Int.bmod_eq_of_le (by omega) (by omega)

theorem toInt_add_of_le {a b c : Int64} (ha : 0 ≤ a.toInt) (hb : 0 ≤ b.toInt) (h : a.toInt + b.toInt ≤ c.toInt) :
    (a + b).toInt = a.toInt + b.toInt := by
  have hmax := c.toInt_le
  rw [Int64.toInt_maxValue] at hmax
  rw [Int64.toInt_add]
  exact Int.bmod_eq_of_le (by omega) (by omega)

theorem toInt_chunkSize : filepackChunkSize.toInt = 4194304 := rfl

theorem toInt_maxEncoded : maxFilepackEncodedChunk.toInt = 4194560 := by decide

variable {logicalSize nextOffset : Int64} {header : Bytes} {s : Decoding}

/-- The checks of a record, in the order in which the code makes them. -/
theorem checkDataRecord_spec {r : DataRecord}
    (h : checkDataRecord logicalSize nextOffset header = (.ok r : Except (DecodeError ε) DataRecord)) :
    Checked logicalSize nextOffset header r := by
  unfold checkDataRecord at h
  obtain ⟨_, hrange, h⟩ := bind_eq_ok.mp h
  obtain ⟨_, hrecord, h⟩ := bind_eq_ok.mp h
  obtain ⟨_, horder, h⟩ := bind_eq_ok.mp h
  rw [reject_eq_ok] at hrange hrecord horder
  have hoffset : (Int64.ofNat (beNat (slice header 0 8))).toInt = beNat (slice header 0 8) := by
    apply toInt_ofNat
    unfold maxInt64 at hrange
    omega
  have hraw : (Int64.ofNat (beNat (slice header 8 4))).toInt = beNat (slice header 8 4) :=
    toInt_ofNat (lt_trans (beNat_slice_lt header 8 4) (by decide))
  simp only [not_or, Int64.lt_iff_toInt_lt, Int64.le_iff_toInt_le, gt_iff_lt, Int.not_lt, Int.not_le,
    Int64.toInt_zero, toInt_chunkSize, toInt_maxEncoded] at hrecord
  obtain ⟨hsize, hnonneg, hle, hpositive, hchunk, hfits, hcompressed, hencoded⟩ := hrecord
  have hcompressedSize : (Int64.ofNat (beNat (slice header 12 8))).toInt = beNat (slice header 12 8) :=
    toInt_ofNat (lt_of_ofNat_nonneg (lt_of_lt_of_le (beNat_slice_lt header 12 8) (by decide)) (by omega))
  cases h
  have hrest := toInt_sub_of_le hnonneg hle
  rw [hrest] at hfits
  simp only [not_or, Int64.lt_iff_toInt_lt, Int.not_lt, not_not] at horder
  obtain ⟨hnext, hmod, hmin⟩ := horder
  have hend : (Int64.ofNat (beNat (slice header 0 8))).toInt + (Int64.ofNat (beNat (slice header 8 4))).toInt ≤
      logicalSize.toInt := by
    omega
  refine ⟨hoffset, hraw, hcompressedSize, hrest, toInt_add_of_le hnonneg hpositive.le hend, hnext, ?_, ?_,
    hpositive, hcompressed, hencoded⟩
  · have hzero := congrArg Int64.toInt hmod
    rwa [Int64.toInt_mod, Int64.toInt_zero, toInt_chunkSize, Int.tmod_eq_emod_of_nonneg hnonneg] at hzero
  · have hmin' : (Int64.ofNat (beNat (slice header 8 4))).toInt =
        (if filepackChunkSize ≤ logicalSize - Int64.ofNat (beNat (slice header 0 8)) then filepackChunkSize
          else logicalSize - Int64.ofNat (beNat (slice header 0 8))).toInt := congrArg Int64.toInt hmin
    show (Int64.ofNat (beNat (slice header 8 4))).toInt = _
    rw [hmin', Int.min_def]
    simp only [Int64.le_iff_toInt_le, toInt_chunkSize, hrest]
    split_ifs
    · rfl
    · exact hrest

/-! ## Writes -/

/-- Writes of whole chunks, in order, that reach up to `next`. There are no more of them than chunks up to there. -/
structure Trace (size next : Int) (writes : List Write) : Prop where
  inside : ∀ w ∈ writes, 0 ≤ w.offset.toInt ∧ w.offset.toInt + w.data.length ≤ size
  aligned : ∀ w ∈ writes, w.offset.toInt % 4194304 = 0
  whole : ∀ w ∈ writes, 0 < w.data.length ∧ (w.data.length : Int) = min 4194304 (size - w.offset.toInt)
  ordered : writes.Pairwise fun a b : Write => a.offset.toInt + a.data.length ≤ b.offset.toInt
  below : ∀ w ∈ writes, w.offset.toInt + w.data.length ≤ next
  count : (writes.length : Int) * 4194304 < next + 4194304

theorem Trace.nil (size : Int) : Trace size 0 [] :=
  ⟨by simp, by simp, by simp, .nil, by simp, by simp⟩

/-- **One more chunk.** -/
theorem Trace.snoc {data : Bytes} {r : DataRecord} {writes : List Write}
    (h : Trace logicalSize.toInt nextOffset.toInt writes) (hr : Checked logicalSize nextOffset header r)
    (hdata : (data.length : Int) = r.rawSize.toInt) :
    Trace logicalSize.toInt (r.offset + r.rawSize).toInt (writes ++ [⟨r.offset, data⟩]) := by
  have hoffset := hr.offset
  have hordered := hr.ordered
  have hchunk := hr.chunk
  have hpositive := hr.nonempty
  have haligned := hr.aligned
  have hcount := h.count
  rw [hr.next]
  -- every clause holds of the earlier writes, and `hr` is the check of the new one
  have hall {P : Write → Prop} (hold : ∀ w ∈ writes, P w) (hnew : P ⟨r.offset, data⟩) :
      ∀ w ∈ writes ++ [⟨r.offset, data⟩], P w := by
    intro w hw
    rcases List.mem_append.mp hw with hw | hw
    · exact hold w hw
    · rw [List.mem_singleton.mp hw]
      exact hnew
  refine ⟨hall h.inside ?_, hall h.aligned haligned, hall h.whole ?_, ?_, hall (fun w hw => ?_) ?_, ?_⟩
  · dsimp only
    omega
  · dsimp only
    omega
  · rw [List.pairwise_append]
    refine ⟨h.ordered, List.pairwise_singleton _ _, fun a ha b hb => ?_⟩
    rw [List.mem_singleton.mp hb]
    exact (h.below a ha).trans hordered
  · have := h.below w hw
    omega
  · dsimp only
    omega
  · rw [List.length_append, List.length_singleton, Nat.cast_add, Nat.cast_one]
    omega

/-- The number of chunks of a file. -/
def chunkCount (size : Int64) : Nat := (size.toInt.toNat + 4194303) / 4194304

theorem Trace.length_le {size : Int64} {next : Int} {writes : List Write} (h : Trace size.toInt next writes)
    (hnext : next ≤ size.toInt) : writes.length ≤ chunkCount size := by
  have := h.count
  unfold chunkCount
  omega

/-! ## States -/

/-- The buffers made: two for the header, and two for chunks once there was one. -/
structure Made (s : Decoding) : Prop where
  sizes : ∀ n ∈ s.made, n ≤ 4194560
  count : s.made.length ≤ if s.buffers.isSome then 4 else 2
  buffers : ∀ b ∈ s.buffers, b = (4194560, 4194304)

/-- What holds between two records. -/
structure Between (logicalSize : Int64) (s : Decoding) : Prop where
  trace : Trace logicalSize.toInt s.nextOffset.toInt s.writes
  next : s.nextOffset.toInt ≤ logicalSize.toInt
  made : Made s

/-- What holds whenever decoding stops. -/
structure Safe (logicalSize : Int64) (s : Decoding) : Prop where
  trace : ∃ next, Trace logicalSize.toInt next s.writes
  chunks : s.writes.length ≤ chunkCount logicalSize
  sizes : ∀ n ∈ s.made, n ≤ 4194560
  count : s.made.length ≤ 4

theorem Made.count_le (h : Made s) : s.made.length ≤ 4 := by
  have := h.count
  split at this <;> omega

theorem Between.safe (h : Between logicalSize s) : Safe logicalSize s :=
  ⟨⟨_, h.trace⟩, h.trace.length_le h.next, h.made.sizes, h.made.count_le⟩

/-- Reading on changes nothing of it. -/
theorem Between.moved {t : Decoding} {pos rounds : Nat} (h : Between logicalSize s)
    (ht : t = { s with pos := pos, rounds := rounds }) : Between logicalSize t := by
  rw [ht]
  exact ⟨h.trace, h.next, h.made.sizes, h.made.count, h.made.buffers⟩

/-- A failure that is not a panic, in a safe state. -/
def Fails (logicalSize : Int64) (e : DecodeError ε) (s : Decoding) : Prop := e ≠ .panics ∧ Safe logicalSize s

theorem Between.fails (h : Between logicalSize s) (e : DecodeError ε) (he : e ≠ .panics) : Fails logicalSize e s :=
  ⟨he, h.safe⟩

section Steps

variable {α β : Type} {env : Env ε} {s : Decoding} {Q : Except (DecodeError ε) β → Decoding → Prop}

theorem readFull_bind {n : Nat} {f : Bytes → DecodeAct ε β} (herr : ∀ e, e ≠ .panics → Q (.error e) s)
    (hok : ∀ bytes t, env.source.next s.pos n = some bytes → t = { s with pos := s.pos + n } →
      Outcome t (f bytes) Q) : Outcome s (readFull env n >>= f) Q := by
  apply Outcome.effect_bind
  · intro e t h
    split at h
    · cases h
    · rename_i e' _
      cases h
      cases e' <;> exact herr _ (by simp [contentReadError])
  · intro bytes t h
    split at h
    · rename_i hread
      cases h
      exact hok bytes _ (Reader.readFull_eq_ok.mp hread) rfl
    · cases h

/-- A check that does not panic. -/
abbrev Calm {α : Type} (x : Except (DecodeError ε) α) : Prop := Avoids (· = .panics) x

theorem calm_reject {c : Prop} [Decidable c] {content : Defect ε} :
    Calm (reject c (.invalidContent content)) :=
  .reject (by simp)

theorem attempt_bind_of_calm {x : Except (DecodeError ε) α} {f : α → DecodeAct ε β} (hx : Calm x)
    (herr : ∀ e, e ≠ .panics → Q (.error e) s) (hok : ∀ a, x = .ok a → Outcome s (f a) Q) :
    Outcome s (attempt x >>= f) Q :=
  Outcome.attempt_bind (fun e he => herr e (hx e he)) hok

theorem reslice_bind {capacity : Nat} {n : Int64} {f : Nat → DecodeAct ε β} (hn : 0 < n.toInt)
    (hle : n.toInt ≤ capacity) (h : Outcome s (f n.toInt.toNat) Q) :
    Outcome s (attempt (reslice capacity n) >>= f) Q := by
  have hslice : reslice capacity n = (.ok n.toInt.toNat : Except (DecodeError ε) Nat) := by
    apply if_pos
    rw [Int64.le_iff_toInt_le, Int64.toInt_zero]
    exact ⟨hn.le, hle⟩
  rw [hslice]
  exact h

end Steps

/-! ## One round -/

section Round

variable {env : Env ε} {logicalSize : Int64} {s : Decoding}

theorem checkDataRecord_calm (nextOffset : Int64) (header : Bytes) :
    Calm (checkDataRecord logicalSize nextOffset header : Except (DecodeError ε) DataRecord) := by
  unfold checkDataRecord
  exact calm_reject.bind fun _ _ => calm_reject.bind fun _ _ => calm_reject.bind fun _ _ => .ok _

/-- A data record is taken whole, or decoding stops. -/
theorem readFilepackDataRecord_outcome (h : Between logicalSize s) :
    Outcome s (readFilepackDataRecord env logicalSize 4194560 4194304) fun r t => match r with
      | .ok () => Between logicalSize t ∧ t.writes.length = s.writes.length + 1
      | .error e => Fails logicalSize e t := by
  apply readFull_bind h.fails
  intro header t _ ht
  have hbetween : Between logicalSize t := h.moved ht
  refine Outcome.reads_bind (fun e he => hbetween.fails e (checkDataRecord_calm _ _ e he)) fun r hr => ?_
  -- both lengths were checked against the buffers before these are cut
  have hchecked := checkDataRecord_spec hr
  have hchunk := hchecked.chunk
  apply reslice_bind hchecked.encoded.1 hchecked.encoded.2
  apply readFull_bind hbetween.fails
  intro input u _ hu
  have hbetween' : Between logicalSize u := hbetween.moved hu
  apply reslice_bind hchecked.nonempty (by omega)
  apply attempt_bind_of_calm (.mapError fun cause => by simp) hbetween'.fails
  intro data _
  apply attempt_bind_of_calm calm_reject hbetween'.fails
  intro _ hlength
  rw [reject_eq_ok, not_not] at hlength
  have hwrites : u.writes = t.writes := by
    rw [hu]
  -- the chunk is written even where the write then fails
  have htrace := hbetween.trace.snoc hchecked hlength
  rw [← hwrites] at htrace
  have hnext : (r.offset + r.rawSize).toInt ≤ logicalSize.toInt := by
    rw [hchecked.next]
    omega
  apply Outcome.effect_bind
  · intro e v hv
    split at hv
    · cases hv
      exact ⟨by simp, ⟨_, htrace⟩, htrace.length_le hnext, hbetween'.made.sizes, hbetween'.made.count_le⟩
    · cases hv
  · intro _ v hv
    split at hv
    · cases hv
    · cases hv
      refine ⟨⟨htrace, hnext, hbetween'.made.sizes, hbetween'.made.count, hbetween'.made.buffers⟩, ?_⟩
      show (u.writes ++ [_]).length = _
      rw [List.length_append, hwrites, ht]
      rfl

/-- The state with the two buffers for chunks. -/
def Decoding.buffered (s : Decoding) : Decoding :=
  match s.buffers with
  | some _ => s
  | none => { s with made := s.made ++ [4194560] ++ [4194304], buffers := some (4194560, 4194304) }

theorem makeBuffers_outcome (h : ∀ b ∈ s.buffers, b = (4194560, 4194304)) :
    Outcome s (makeBuffers : DecodeAct ε (Nat × Nat)) fun r t => r = .ok (4194560, 4194304) ∧ t = s.buffered := by
  unfold makeBuffers Decoding.buffered
  refine Outcome.reads_ok rfl ?_
  cases hs : s.buffers with
  | some buffers => exact ⟨congrArg Except.ok (h buffers hs), rfl⟩
  | none => exact ⟨rfl, rfl⟩

theorem Between.buffered (h : Between logicalSize s) : Between logicalSize s.buffered := by
  unfold Decoding.buffered
  have hcount := h.made.count
  cases hs : s.buffers with
  | some buffers => exact h
  | none =>
    rw [hs] at hcount
    refine ⟨h.trace, h.next, fun n hn => ?_, ?_, ?_⟩
    · simp only [List.mem_append, List.mem_singleton] at hn
      rcases hn with (hn | rfl) | rfl
      · exact h.made.sizes n hn
      · decide
      · decide
    · show (s.made ++ [_] ++ [_]).length ≤ 4
      rw [List.length_append, List.length_append]
      exact Nat.add_le_add_right (Nat.add_le_add_right hcount 1) 1
    · rintro b ⟨⟩
      rfl

theorem writes_buffered (s : Decoding) : s.buffered.writes = s.writes := by
  unfold Decoding.buffered
  split <;> rfl

/-- The stream ends right after an end record. -/
def Complete (env : Env ε) (s : Decoding) : Prop :=
  0 < s.pos ∧ env.source.byte (s.pos - 1) = some filepackRecordEnd ∧ env.source.byte s.pos = none ∧
    env.source.fault = none

theorem checkEnd_outcome (h : Between logicalSize s) (hpos : 0 < s.pos)
    (hlast : env.source.byte (s.pos - 1) = some filepackRecordEnd) :
    Outcome s (checkEnd env) fun r t => match r with
      | .ok () => Complete env t ∧ Between logicalSize t
      | .error e => Fails logicalSize e t := by
  unfold checkEnd Outcome
  rw [from_reads]
  unfold Reader.readByte
  split_ifs with hstalls
  · exact h.fails _ (by simp)
  · cases hbyte : env.source.byte s.pos with
    | some b => exact h.fails _ (by simp)
    | none =>
      cases hfault : env.source.fault with
      | some cause => exact h.fails _ (by simp)
      | none => exact ⟨⟨hpos, hlast, hbyte, hfault⟩, h⟩

/-- **One round of the loop**: the end, one more chunk, or a failure. -/
theorem decodeRecord_outcome (h : Between logicalSize s) :
    Outcome s (decodeRecord env logicalSize) fun r t => match r with
      | .ok true => Complete env t ∧ Between logicalSize t
      | .ok false => Between logicalSize t ∧ t.writes.length = s.writes.length + 1
      | .error e => Fails logicalSize e t := by
  apply Outcome.effect_bind
  · intro e t ht
    split at ht
    · rename_i cause _
      cases ht
      exact (h.moved rfl).fails (.external cause) (by simp)
    · cases ht
  · intro _ t ht
    have ht' : { s with rounds := s.rounds + 1 } = t := (Prod.mk.inj ht).2
    have hbetween : Between logicalSize t := h.moved ht'.symm
    have hwrites : t.writes = s.writes := by
      rw [← ht']
    apply readFull_bind hbetween.fails
    intro recordType u hnext hu
    have hbetween' : Between logicalSize u := hbetween.moved hu
    split_ifs with hend hdata
    · have hlast : env.source.byte (u.pos - 1) = some filepackRecordEnd := by
        obtain ⟨b, hb, rfl⟩ := Reader.next_one hnext
        cases hend
        rw [hu]
        exact hb
      apply Outcome.bind (checkEnd_outcome hbetween' (by rw [hu]; exact Nat.succ_pos _) hlast)
      · exact fun e v hv => hv
      · exact fun _ v hv => Outcome.pure hv
    · apply Outcome.bind_ok (makeBuffers_outcome hbetween'.made.buffers)
      rintro _ rfl
      apply Outcome.bind (readFilepackDataRecord_outcome hbetween'.buffered)
      · exact fun e w hw => hw
      · intro _ w hw
        apply Outcome.pure
        rw [writes_buffered, hu] at hw
        rw [← hwrites]
        exact hw
    · exact hbetween'.fails _ (by simp)

end Round

/-! ## Runs -/

/-- What decoding leaves: it ended, and where it ended well the stream is complete. -/
def Ends (env : Env ε) (logicalSize : Int64) (r : Except (DecodeError ε) Bool) (s : Decoding) : Prop :=
  match r with
  | .ok true => Complete env s ∧ Safe logicalSize s
  | .ok false => False
  | .error e => Fails logicalSize e s

/-- **The loop ends**: every round but the last writes a chunk. -/
theorem decodeRecords_outcome {env : Env ε} {fuel : Nat} (h : Between logicalSize s)
    (hfuel : chunkCount logicalSize < s.writes.length + fuel) :
    Outcome s (decodeRecords env logicalSize fuel) (Ends env logicalSize) := by
  induction fuel generalizing s with
  | zero =>
    have := h.trace.length_le h.next
    omega
  | succ fuel ih =>
    refine Outcome.bind (decodeRecord_outcome h) (fun e t ht => ht) fun ended t ht => ?_
    cases ended with
    | true => exact Outcome.pure ⟨ht.1, ht.2.safe⟩
    | false => exact ih ht.1 (by omega)

/-! ## The header -/

/-- The states before the first record. -/
structure Untouched (s : Decoding) : Prop where
  writes : s.writes = []
  next : s.nextOffset = 0
  buffers : s.buffers = none
  sizes : ∀ n ∈ s.made, n ≤ 4194560
  count : s.made.length ≤ 2

theorem Untouched.moved {t : Decoding} {pos : Nat} (h : Untouched s) (ht : t = { s with pos := pos }) :
    Untouched t := by
  rw [ht]
  exact ⟨h.writes, h.next, h.buffers, h.sizes, h.count⟩

theorem Untouched.safe (h : Untouched s) (logicalSize : Int64) : Safe logicalSize s := by
  refine ⟨⟨0, ?_⟩, ?_, h.sizes, h.count.trans (by decide)⟩
  · rw [h.writes]
    exact Trace.nil _
  · rw [h.writes]
    exact Nat.zero_le _

theorem Untouched.between (h : Untouched s) (hsize : 0 ≤ logicalSize.toInt) : Between logicalSize s := by
  refine ⟨?_, ?_, h.sizes, ?_, ?_⟩
  · rw [h.writes, h.next]
    exact Trace.nil _
  · rw [h.next]
    exact hsize
  · rw [h.buffers]
    exact h.count
  · rw [h.buffers]
    simp

theorem Untouched.fails (h : Untouched s) (logicalSize : Int64) (e : DecodeError ε) (he : e ≠ .panics) :
    Fails logicalSize e s := ⟨he, h.safe logicalSize⟩

theorem headerField_calm (h : FilepackHeader) (name : Bytes) (v : Json.Value) :
    Calm (headerField h name v : Except (DecodeError ε) FilepackHeader) := by
  have hint (old : Int64) : Calm (v.asInt64 (DecodeError.invalidContent (ε := ε) .header) old) := by
    unfold Json.Value.asInt64 Calm Avoids
    split
    · split <;> simp
    · simp
    · simp
  have hstring (old : Bytes) : Calm (v.asString (DecodeError.invalidContent (ε := ε) .header) old) := by
    unfold Json.Value.asString Calm Avoids
    split <;> simp
  unfold headerField
  dsimp only
  split_ifs
  · exact (hint _).bind fun _ _ => .ok _
  · exact (hstring _).bind fun _ _ => .ok _
  · exact (hint _).bind fun _ _ => .ok _
  · exact (hint _).bind fun _ _ => .ok _
  · exact (hstring _).bind fun _ _ => .ok _
  · exact .ok h

theorem decodeHeader_calm (payload : Bytes) : Calm (decodeHeader payload : Except (DecodeError ε) FilepackHeader) := by
  have hfold (members : List (Bytes × Json.Value)) (h : FilepackHeader) :
      Calm (members.foldlM (fun h m => headerField h m.1 m.2) h : Except (DecodeError ε) FilepackHeader) := by
    induction members generalizing h with
    | nil => exact .ok h
    | cons m rest ih =>
      rw [List.foldlM_cons]
      exact (headerField_calm h m.1 m.2).bind fun h' _ => ih h'
  unfold decodeHeader
  split
  · split_ifs
    · unfold Json.Value.asStruct
      split
      · exact hfold _ _
      · exact .ok _
      · exact .error (by simp)
    · exact .error (by simp)
  · exact .error (by simp)

theorem validateFilepackHeader_calm (header : FilepackHeader) (role : Bytes) :
    Calm (validateFilepackHeader header role : Except (DecodeError ε) Unit) := by
  unfold validateFilepackHeader
  exact calm_reject.bind fun _ _ => calm_reject.bind fun _ _ => calm_reject.bind fun _ _ =>
    calm_reject.bind fun _ _ => calm_reject

/-- Reading the header writes nothing and does not panic. -/
theorem readFilepackHeader_outcome (env : Env ε) :
    Outcome .start (readFilepackHeader env) fun r t => Untouched t ∧ ∀ e, r = .error e → e ≠ .panics := by
  have hfail {t : Decoding} (ht : Untouched t) (e : DecodeError ε) (he : e ≠ .panics) :
      Untouched t ∧ ∀ e', (.error e : Except (DecodeError ε) FilepackHeader) = .error e' → e' ≠ .panics :=
    ⟨ht, fun e' h => by cases h; exact he⟩
  refine Outcome.effect_ok rfl ?_
  have hstart : Untouched { Decoding.start with made := [filepackMagic.length] } :=
    ⟨rfl, rfl, rfl, by decide, by decide⟩
  apply readFull_bind (hfail hstart)
  intro magic t _ ht
  apply attempt_bind_of_calm calm_reject (hfail (hstart.moved ht))
  intro _ _
  apply readFull_bind (hfail (hstart.moved ht))
  intro encoded u _ hu
  have huntouched : Untouched u := (hstart.moved ht).moved hu
  apply attempt_bind_of_calm calm_reject (hfail huntouched)
  intro _ hsize
  rw [reject_eq_ok, not_or, not_lt] at hsize
  refine Outcome.effect_ok rfl ?_
  have hpayload : Untouched { u with made := u.made ++ [beNat encoded] } := by
    refine ⟨huntouched.writes, huntouched.next, huntouched.buffers, ?_, ?_⟩
    · intro n hn
      rcases List.mem_append.mp hn with hn | hn
      · exact huntouched.sizes n hn
      · rw [List.mem_singleton.mp hn]
        exact hsize.2.trans (by decide)
    · show (u.made ++ [_]).length ≤ 2
      rw [List.length_append, hu, ht]
      rfl
  apply readFull_bind (hfail hpayload)
  intro payload w _ hw
  apply Outcome.attempt
  exact ⟨hpayload.moved hw, decodeHeader_calm payload⟩

/-- **Decoding ends**, whatever the stream. -/
theorem decodeFilepack_outcome (env : Env ε) (role : Bytes) (size : Int64) {fuel : Nat}
    (hfuel : chunkCount size < fuel) : Outcome .start (decodeFilepack env role size fuel) (Ends env size) := by
  apply Outcome.bind (readFilepackHeader_outcome env)
  · exact fun e t ht => ht.1.fails size e (ht.2 e rfl)
  · intro header t ht
    have huntouched := ht.1
    apply attempt_bind_of_calm (validateFilepackHeader_calm header role) (huntouched.fails size)
    intro _ _
    apply attempt_bind_of_calm (.reject (by simp)) (huntouched.fails size)
    intro _ hnonneg
    rw [reject_eq_ok, Int64.lt_iff_toInt_lt, Int64.toInt_zero, not_lt] at hnonneg
    apply attempt_bind_of_calm calm_reject (huntouched.fails size)
    intro _ hsize
    rw [reject_eq_ok, not_not] at hsize
    refine Outcome.effect_ok rfl ?_
    have hstats : Untouched { t with stats := ⟨header.logicalSize, 0, 0⟩ } :=
      ⟨huntouched.writes, huntouched.next, huntouched.buffers, huntouched.sizes, huntouched.count⟩
    split
    · exact hstats.fails size _ (by simp)
    · rw [hsize] at hstats ⊢
      apply decodeRecords_outcome (hstats.between hnonneg)
      omega

/-! ## Main result -/

/-- A field of 64 bits above what an offset or a size may be is rejected. -/
theorem checkDataRecord_large (h : maxInt64 < beNat (slice header 0 8) ∨ maxInt64 < beNat (slice header 12 8)) :
    ∃ content, checkDataRecord logicalSize nextOffset header =
      (.error (.invalidContent content) : Except (DecodeError ε) DataRecord) := by
  unfold checkDataRecord
  dsimp only
  by_cases hoffset : beNat (slice header 0 8) > maxInt64
  · exact ⟨.dataOffset, by rw [reject_true hoffset]; rfl⟩
  · have hsize : maxInt64 < beNat (slice header 12 8) := h.resolve_left hoffset
    have hnegative : Int64.ofNat (beNat (slice header 12 8)) ≤ 0 := by
      rw [Int64.le_iff_toInt_le, Int64.toInt_zero]
      by_contra hpositive
      have hlt := lt_of_ofNat_nonneg (lt_of_lt_of_le (beNat_slice_lt header 12 8) (by decide)) (by omega)
      unfold maxInt64 at hsize
      omega
    refine ⟨.dataRecord, ?_⟩
    rw [reject_false hoffset, ok_bind, reject_true (by simp [hnegative])]
    rfl

/-- **Decoding is bounded on any stream.** With a round for every chunk and one more, decoding ends and does not
panic. It writes at most every chunk of the file once: inside the file, on chunk boundaries, in strictly
increasing order without overlap. Where it succeeds the stream ends right after an end record. It makes at most
four buffers, of at most a chunk and the envelope of its encoding. The fields of an accepted record are read
exactly and nothing computed from them wraps, and a field above the largest `int64` is rejected. -/
theorem decoding_is_bounded (env : Env ε) (role : Bytes) (size : Int64) (extra : Nat) :
    ∃ r s, Act.from (decodeFilepack env role size (chunkCount size + 1 + extra)) .start = (r, s) ∧
      r ≠ .ok false ∧ r ≠ .error .panics ∧
      s.writes.length ≤ chunkCount size ∧
      (∀ w ∈ s.writes, 0 ≤ w.offset.toInt ∧ 0 < w.data.length ∧ w.offset.toInt + w.data.length ≤ size.toInt ∧
        w.offset.toInt % filepackChunkSize.toInt = 0) ∧
      (s.writes.Pairwise fun a b : Write =>
        a.offset.toInt < b.offset.toInt ∧ a.offset.toInt + a.data.length ≤ b.offset.toInt) ∧
      (r = .ok true → Complete env s) ∧
      (∀ n ∈ s.made, (n : Int) ≤ maxFilepackEncodedChunk.toInt) ∧ s.made.length ≤ 4 ∧
      (∀ nextOffset header record,
        checkDataRecord size nextOffset header = (.ok record : Except (DecodeError ε) DataRecord) →
          Checked size nextOffset header record) ∧
      (∀ nextOffset header, maxInt64 < beNat (slice header 0 8) ∨ maxInt64 < beNat (slice header 12 8) →
        ∃ content, checkDataRecord size nextOffset header =
          (.error (.invalidContent content) : Except (DecodeError ε) DataRecord)) := by
  have hends := decodeFilepack_outcome env role size (show chunkCount size < chunkCount size + 1 + extra by omega)
  generalize hrun : Act.from (decodeFilepack env role size (chunkCount size + 1 + extra)) .start = result at hends
  obtain ⟨r, s⟩ := result
  have hended : Ends env size r s := hends.of_from hrun
  have hsafe : Safe size s := by
    unfold Ends at hended
    split at hended
    · exact hended.2
    · exact hended.elim
    · exact hended.2
  obtain ⟨next, htrace⟩ := hsafe.trace
  refine ⟨r, s, rfl, ?_, ?_, hsafe.chunks, fun w hw => ?_, ?_, ?_, fun n hn => ?_, hsafe.count,
    fun _ _ _ => checkDataRecord_spec, fun _ _ => checkDataRecord_large⟩
  · rintro rfl
    exact hended
  · rintro rfl
    exact hended.1 rfl
  · exact ⟨(htrace.inside w hw).1, (htrace.whole w hw).1, (htrace.inside w hw).2, htrace.aligned w hw⟩
  · -- a write is not empty, so where it ends is after where it starts
    refine htrace.ordered.imp_of_mem fun {a b} ha _ hab => ⟨?_, hab⟩
    have := (htrace.whole a ha).1
    omega
  · rintro rfl
    exact hended.1
  · rw [toInt_maxEncoded]
    exact_mod_cast hsafe.sizes n hn

end Helmr.Filepack
