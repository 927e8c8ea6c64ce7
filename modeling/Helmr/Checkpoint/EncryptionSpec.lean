import Helmr.Checkpoint.Encryption

/-!
# Checkpoint — what a stream is worth

A plaintext of `chunks` pieces becomes the header, the frames of its pieces and the frame of an empty end
record (`framesFrom`). `Round` and `ReadRound` list what one round of either loop can come to; every fact about
a whole loop is an induction over its rounds. `encryptChunks_ok` and `decryptRecords_calm` are the round trip.
Where the cipher opens only what was sealed, the associated data of a record names header, purpose, position and
end (`additionalData_inj`), so that every record read is the record of one encryption at its own place
(`Ideal.record`); `decryptRecords_authentic` follows them through a stream.
-/

namespace Helmr.Checkpoint

open Wire Fallible

theorem headerSize_eq : headerSize = 75 := by decide

theorem chunkSize_eq : chunkSize = 4194304 := by decide

theorem maxRecords_eq : maxRecords = 4294967296 := by decide

/-! ## The pieces of a plaintext -/

def piece (plaintext : Bytes) (k : Nat) : Bytes := slice plaintext (k * chunkSize) chunkSize

/-- The pieces that are not empty. -/
def chunks (length : Nat) : Nat := length / chunkSize + if length % chunkSize ≠ 0 then 1 else 0

theorem chunks_le_iff {length k : Nat} : chunks length ≤ k ↔ length ≤ k * chunkSize := by
  simp only [chunks, chunkSize_eq]
  -- the remainder counts as one more piece exactly when it is not empty
  split <;> omega

theorem piece_eq_nil_iff {plaintext : Bytes} {k : Nat} :
    piece plaintext k = [] ↔ chunks plaintext.length ≤ k := by
  rw [chunks_le_iff, piece, slice, List.take_eq_nil_iff, List.drop_eq_nil_iff, chunkSize_eq]
  omega

theorem length_piece_le (plaintext : Bytes) (k : Nat) : (piece plaintext k).length ≤ chunkSize :=
  List.length_take_le _ _

theorem piece_append_slice (plaintext : Bytes) (k n : Nat) :
    piece plaintext k ++ slice plaintext ((k + 1) * chunkSize) n
      = slice plaintext (k * chunkSize) (chunkSize + n) := by
  rw [piece, slice, slice, slice, List.take_add, List.drop_drop, Nat.succ_mul]

theorem slice_chunks (plaintext : Bytes) :
    slice plaintext (0 * chunkSize) (chunks plaintext.length * chunkSize) = plaintext := by
  have hall : plaintext.length ≤ chunks plaintext.length * chunkSize := chunks_le_iff.1 le_rfl
  rw [slice, Nat.zero_mul, List.drop_zero, List.take_of_length_le hall]

/-! ## The frames of a plaintext -/

def frame (nonce sealed : Bytes) : Bytes :=
  beBytes 4 nonce.length ++ beBytes 4 sealed.length ++ nonce ++ sealed

section Frames

variable (cipher : Cipher) (key header purpose plaintext : Bytes)

/-- The sealing of piece `k`. -/
def sealing (k : Nat) (last : Bool) : Sealing :=
  let nonce := checkpointNonce k
  let additional := additionalData header purpose k last
  ⟨key, nonce, piece plaintext k, additional,
    cipher.sealWith key nonce (piece plaintext k) additional⟩

def Sealing.frame (s : Sealing) : Bytes := Checkpoint.frame s.nonce s.sealed

/-- `d` frames from piece `k` on, and the end frame behind them. -/
def framesFrom (k : Nat) : Nat → Bytes
  | 0 => (sealing cipher key header purpose plaintext k true).frame
  | d + 1 => (sealing cipher key header purpose plaintext k false).frame ++ framesFrom (k + 1) d

@[simp] theorem length_checkpointNonce (k : Nat) : (checkpointNonce k).length = nonceSize := by
  simp [checkpointNonce, nonceSize]

theorem length_frame (k : Nat) (last : Bool) :
    (sealing cipher key header purpose plaintext k last).frame.length
      = (piece plaintext k).length + 36 := by
  simp only [Sealing.frame, frame, sealing, List.length_append, length_beBytes, length_checkpointNonce,
    cipher.length_sealWith, nonceSize, tagSize]
  omega

theorem length_framesFrom {k d : Nat} (hd : k + d = chunks plaintext.length) :
    (framesFrom cipher key header purpose plaintext k d).length
      = (plaintext.length - k * chunkSize) + (d + 1) * 36 := by
  induction d generalizing k with
  | zero =>
    have hle : plaintext.length ≤ k * chunkSize := chunks_le_iff.1 (by omega)
    rw [framesFrom, length_frame, piece_eq_nil_iff.2 (by omega), List.length_nil]
    omega
  | succ d ih =>
    have hlt : ¬ plaintext.length ≤ k * chunkSize := fun h => by
      have := chunks_le_iff.2 h
      omega
    rw [framesFrom, List.length_append, length_frame, ih (by omega), piece, slice, List.length_take,
      List.length_drop]
    simp only [chunkSize_eq] at hlt ⊢
    omega

end Frames

/-! ## Writing -/

section Writing

variable {cipher : Cipher} {env : Env} {key header purpose plaintext : Bytes}

variable {fuel chunk : Nat} {output : Bytes} {log : List Sealing} {r : Sealed}

theorem emit_eq_true {b output' : Bytes} (h : emit env b output = (true, output')) : output' = output ++ b := by
  unfold emit at h
  split at h <;> simp_all

theorem emit_calm (b output : Bytes) : emit .calm b output = (true, output ++ b) := rfl

theorem writeRecord_eq_true {nonce sealed output' : Bytes} (h : writeRecord env nonce sealed output = (true, output')) :
    output' = output ++ frame nonce sealed := by
  simp only [writeRecord] at h
  split at h
  · cases h
  · rename_i first hfirst
    split at h
    · cases h
    · rename_i second hsecond
      rw [emit_eq_true h, emit_eq_true hsecond, emit_eq_true hfirst]
      simp [frame]

theorem writeRecord_calm (nonce sealed output : Bytes) :
    writeRecord .calm nonce sealed output = (true, output ++ frame nonce sealed) := by
  simp [writeRecord, emit_calm, frame]

theorem drop_drop_chunk (plaintext : Bytes) (chunk : Nat) :
    (plaintext.drop (chunk * chunkSize)).drop chunkSize = plaintext.drop ((chunk + 1) * chunkSize) := by
  rw [List.drop_drop, Nat.succ_mul]

variable (cipher env key header purpose plaintext fuel chunk output log) in
/-- What one round of the encryption can come to. -/
inductive Round : Sealed → Prop
  | refused (e : CheckpointError) (he : e ≠ .endless) : Round ⟨.error e, output, log⟩
  | broken (last : Bool) (output' : Bytes) (hchunk : chunk < maxRecords)
    (hlast : last = true ↔ piece plaintext chunk = [] ∧ env.ending = .eof) :
    Round ⟨.error .write, output', log ++ [sealing cipher key header purpose plaintext chunk last]⟩
  | ended (hchunk : chunk < maxRecords) (hpiece : piece plaintext chunk = []) (heof : env.ending = .eof) :
    Round ⟨.ok (), output ++ (sealing cipher key header purpose plaintext chunk true).frame,
      log ++ [sealing cipher key header purpose plaintext chunk true]⟩
  | next (hchunk : chunk + 1 < maxRecords) (hpiece : ¬ (piece plaintext chunk = [] ∧ env.ending = .eof)) :
    Round (encryptChunks cipher env key header purpose fuel (chunk + 1) (plaintext.drop ((chunk + 1) * chunkSize))
      (output ++ (sealing cipher key header purpose plaintext chunk false).frame)
      (log ++ [sealing cipher key header purpose plaintext chunk false]))

/-- One round of the loop: the end of the plaintext, or one more record. -/
theorem encryptChunks_round
    (hr : encryptChunks cipher env key header purpose (fuel + 1) chunk (plaintext.drop (chunk * chunkSize)) output
      log = r) : Round cipher env key header purpose plaintext fuel chunk output log r := by
  have hpiece : (plaintext.drop (chunk * chunkSize)).take chunkSize = piece plaintext chunk := rfl
  have hdec : ∀ b, decide ((piece plaintext chunk).length = 0 ∧ env.ending = .eof) = b →
      (b = true ↔ piece plaintext chunk = [] ∧ env.ending = .eof) := by
    rintro b rfl
    rw [decide_eq_true_iff, List.length_eq_zero_iff]
  subst hr
  rw [encryptChunks]
  simp only [hpiece, drop_drop_chunk]
  generalize hlast : decide ((piece plaintext chunk).length = 0 ∧ env.ending = .eof) = last
  have hiff := hdec last hlast
  split
  · exact .refused _ (by simp)
  split
  · exact .refused _ (by simp)
  split
  · exact .refused _ (by simp)
  rename_i hlimit
  rw [not_or] at hlimit
  have hchunk : chunk < maxRecords := by omega
  split
  · exact .broken last _ hchunk hiff
  rename_i output' hwrite
  rw [writeRecord_eq_true hwrite]
  cases last with
  | true => exact .ended hchunk (hiff.1 rfl).1 (hiff.1 rfl).2
  | false =>
    have hne : chunk ≠ maxRecords - 1 := fun h => hlimit.2 ⟨rfl, h⟩
    exact .next (by omega) fun h => Bool.noConfusion (hiff.2 h)

/-- Every sealing is that of a piece; a call that sealed its end record has returned from there. -/
theorem encryptChunks_log (fuel chunk : Nat) (output : Bytes) (log : List Sealing)
    (hr : encryptChunks cipher env key header purpose fuel chunk (plaintext.drop (chunk * chunkSize)) output
      log = r) (hmore : env.ending = .eof → chunk ≤ chunks plaintext.length) {s : Sealing} (hs : s ∈ r.log) :
    s ∈ log ∨ ∃ k last, k < maxRecords ∧ s = sealing cipher key header purpose plaintext k last
      ∧ (last = true → k = chunks plaintext.length ∧ (r.result = .ok () ∨ r.result = .error .write)) := by
  -- the end record is sealed at the first empty piece of a plaintext that has ended
  have hend : piece plaintext chunk = [] → env.ending = .eof → chunk = chunks plaintext.length :=
    fun hpiece heof => le_antisymm (hmore heof) (piece_eq_nil_iff.1 hpiece)
  induction fuel generalizing chunk output log with
  | zero =>
    subst hr
    exact .inl hs
  | succ fuel ih =>
    cases encryptChunks_round hr with
    | refused e he => exact .inl hs
    | broken last output' hchunk hlast =>
      rcases List.mem_append.1 hs with h | h
      · exact .inl h
      · exact .inr ⟨chunk, last, hchunk, List.mem_singleton.1 h, fun h => ⟨hend (hlast.1 h).1 (hlast.1 h).2, .inr rfl⟩⟩
    | ended hchunk hpiece heof =>
      rcases List.mem_append.1 hs with h | h
      · exact .inl h
      · exact .inr ⟨chunk, true, hchunk, List.mem_singleton.1 h, fun _ => ⟨hend hpiece heof, .inl rfl⟩⟩
    | next hchunk hpiece =>
      have hmore' : env.ending = .eof → chunk + 1 ≤ chunks plaintext.length := fun heof =>
        not_le.1 fun h => hpiece ⟨piece_eq_nil_iff.2 h, heof⟩
      rcases ih (chunk + 1) _ _ rfl hmore' (fun h heof => le_antisymm (hmore' heof) (piece_eq_nil_iff.1 h))
        with h | h
      · rcases List.mem_append.1 h with h | h
        · exact .inl h
        · exact .inr ⟨chunk, false, by omega, List.mem_singleton.1 h, fun h => by cases h⟩
      · exact .inr h

/-- A call that returns nil has met the end of its plaintext and written every frame. -/
theorem encryptChunks_ok
    (hr : encryptChunks cipher env key header purpose fuel chunk (plaintext.drop (chunk * chunkSize)) output
      log = r) (hok : r.result = .ok ()) :
    env.ending = .eof ∧ (chunk ≤ chunks plaintext.length → r.output
      = output ++ framesFrom cipher key header purpose plaintext chunk (chunks plaintext.length - chunk)) := by
  induction fuel generalizing chunk output log with
  | zero =>
    subst hr
    cases hok
  | succ fuel ih =>
    cases encryptChunks_round hr with
    | refused e he => cases hok
    | broken last output' hlt hlast => cases hok
    | ended hlt hpiece heof =>
      refine ⟨heof, fun hchunk => ?_⟩
      have hle := piece_eq_nil_iff.1 hpiece
      rw [show chunks plaintext.length - chunk = 0 by omega]
      rfl
    | next hlt hpiece =>
      obtain ⟨heof, houtput⟩ := ih rfl
      refine ⟨heof, fun hchunk => ?_⟩
      have hmore : ¬ chunks plaintext.length ≤ chunk := fun h => hpiece ⟨piece_eq_nil_iff.2 h, heof⟩
      rw [houtput (by omega), List.append_assoc,
        show chunks plaintext.length - chunk = (chunks plaintext.length - (chunk + 1)) + 1 by omega]
      rfl

/-- Without trouble around it a round is decided by its piece. -/
theorem encryptChunks_calm_succ {last : Bool} (hlast : last = true ↔ piece plaintext chunk = [])
    (hchunk : chunk < maxRecords) (hnext : last = false → chunk + 1 < maxRecords) :
    encryptChunks cipher .calm key header purpose (fuel + 1) chunk (plaintext.drop (chunk * chunkSize)) output
        log
      = let s := sealing cipher key header purpose plaintext chunk last
        if last then ⟨.ok (), output ++ s.frame, log ++ [s]⟩
        else encryptChunks cipher .calm key header purpose fuel (chunk + 1)
          (plaintext.drop ((chunk + 1) * chunkSize)) (output ++ s.frame) (log ++ [s]) := by
  have hpiece : (plaintext.drop (chunk * chunkSize)).take chunkSize = piece plaintext chunk := rfl
  have hdec : decide ((piece plaintext chunk).length = 0 ∧ Env.calm.ending = .eof) = last := by
    rw [Bool.eq_iff_iff, hlast, decide_eq_true_iff, List.length_eq_zero_iff]
    exact and_iff_left rfl
  have hlimit : ¬ (chunk ≥ maxRecords ∨ (last = false ∧ chunk = maxRecords - 1)) := by
    rintro (h | ⟨h, h'⟩)
    · omega
    · have := hnext h
      omega
  have hread : ¬ ((piece plaintext chunk).length < chunkSize ∧ Env.calm.ending = .failure) :=
    fun h => Ending.noConfusion h.2
  rw [encryptChunks]
  simp only [hpiece, drop_drop_chunk, hdec, if_neg hread, if_neg hlimit, writeRecord_calm]
  rfl

/-- Nothing is in the way of a plaintext within the record limit. -/
theorem encryptChunks_calm {d : Nat} (hd : chunk + d = chunks plaintext.length) (hfuel : d < fuel)
    (hlimit : chunks plaintext.length < maxRecords) :
    (encryptChunks cipher .calm key header purpose fuel chunk (plaintext.drop (chunk * chunkSize)) output
      log).result = .ok () := by
  induction d generalizing fuel chunk output log with
  | zero =>
    obtain ⟨fuel, rfl⟩ := Nat.exists_eq_add_of_lt hfuel
    have hpiece : piece plaintext chunk = [] := piece_eq_nil_iff.2 (by omega)
    rw [encryptChunks_calm_succ (iff_of_true rfl hpiece) (by omega) (by simp)]
    rfl
  | succ d ih =>
    obtain ⟨fuel, rfl⟩ := Nat.exists_eq_add_of_lt hfuel
    have hpiece : ¬ piece plaintext chunk = [] := by
      rw [piece_eq_nil_iff]
      omega
    rw [encryptChunks_calm_succ (iff_of_false Bool.false_ne_true hpiece) (by omega) fun _ => by omega]
    exact ih (by omega) (by omega)

/-- The rounds are bounded by the number of records. -/
theorem encryptChunks_not_endless (hchunk : chunk ≤ maxRecords) (hfuel : maxRecords < chunk + fuel)
    (hr : encryptChunks cipher env key header purpose fuel chunk (plaintext.drop (chunk * chunkSize)) output
      log = r) : r.result ≠ .error .endless := by
  induction fuel generalizing chunk output log with
  | zero => omega
  | succ fuel ih =>
    cases encryptChunks_round hr with
    | refused e he => simpa using he
    | broken last output' hlt hlast => simp
    | ended hlt hpiece heof => simp
    | next hlt hpiece => exact ih (by omega) (by omega) rfl

end Writing

/-! ## Reading -/

section Reading

variable {cipher : Cipher} {opening : Opening} {env : Env} {key header purpose : Bytes}

variable {n fuel chunk : Nat} {input written : Bytes} {allocated : List Nat} {r : Opened}

theorem readFull_append {b : Bytes} (hn : b.length = n) (rest : Bytes) :
    readFull env n (b ++ rest) = .ok (b, rest) := by
  subst hn
  simp [readFull]

theorem readFull_eq_ok {b rest : Bytes} (h : readFull env n input = .ok (b, rest)) :
    input = b ++ rest ∧ b.length = n := by
  unfold readFull at h
  split at h
  · rename_i hle
    cases h
    exact ⟨(List.take_append_drop n input).symm, List.length_take_of_le hle⟩
  · cases h

theorem readFull_ne_endless : readFull env n input ≠ .error .endless := by
  unfold readFull
  split
  · simp
  · split <;> simp

theorem recordSizes_eq_ok {header : Bytes} {m : Nat} (hlen : header.length = 8) (h : recordSizes header = .ok (n, m)) :
    header = beBytes 4 n ++ beBytes 4 m ∧ n ≤ maxNonceSize ∧ m ≤ maxSealedSize := by
  simp only [recordSizes] at h
  split at h
  · cases h
  · rename_i hbounds
    cases h
    refine ⟨?_, by omega, by omega⟩
    have hfirst := beBytes_beNat (slice header 0 4)
    have hsecond := beBytes_beNat (slice header 4 4)
    rw [length_slice (by omega)] at hfirst hsecond
    rw [hfirst, hsecond]
    simp only [slice, List.drop_zero]
    rw [List.take_of_length_le (l := header.drop 4) (by simp [hlen]), List.take_append_drop]

theorem recordSizes_beBytes {m : Nat} (hn : 0 < n ∧ n ≤ maxNonceSize) (hm : 0 < m ∧ m ≤ maxSealedSize) :
    recordSizes (beBytes 4 n ++ beBytes 4 m) = .ok (n, m) := by
  have hnonce : maxNonceSize < 256 ^ 4 := by decide
  have hsealed : maxSealedSize < 256 ^ 4 := by decide
  have hfirst : slice (beBytes 4 n ++ beBytes 4 m) 0 4 = beBytes 4 n := by
    simp [slice]
  have hsecond : slice (beBytes 4 n ++ beBytes 4 m) 4 4 = beBytes 4 m := by
    simp [slice]
  simp only [recordSizes, hfirst, hsecond, beNat_beBytes (show n < 256 ^ 4 by omega),
    beNat_beBytes (show m < 256 ^ 4 by omega)]
  rw [if_neg (by omega)]

theorem readRecord_frame {nonce sealed : Bytes} (rest : Bytes)
    (hn : 0 < nonce.length ∧ nonce.length ≤ maxNonceSize)
    (hm : 0 < sealed.length ∧ sealed.length ≤ maxSealedSize) :
    readRecord env (frame nonce sealed ++ rest)
      = (nonce.length + sealed.length, .ok (nonce, sealed, rest)) := by
  have hhead : readFull env 8 (frame nonce sealed ++ rest)
      = .ok (beBytes 4 nonce.length ++ beBytes 4 sealed.length, nonce ++ (sealed ++ rest)) := by
    rw [show frame nonce sealed ++ rest = (beBytes 4 nonce.length ++ beBytes 4 sealed.length)
      ++ (nonce ++ (sealed ++ rest)) by simp [frame]]
    exact readFull_append (by simp) _
  simp only [readRecord, hhead, recordSizes_beBytes hn hm, readFull_append rfl]

/-- What reading a record can come to. -/
theorem readRecord_cases (env : Env) (input : Bytes) :
    ∃ n, n ≤ maxSealedSize + maxNonceSize
      ∧ ((∃ e, e ≠ .endless ∧ readRecord env input = (n, .error e))
        ∨ ∃ nonce sealed rest, readRecord env input = (n, .ok (nonce, sealed, rest))
          ∧ input = frame nonce sealed ++ rest) := by
  unfold readRecord
  split
  · rename_i e he
    exact ⟨0, Nat.zero_le _, .inl ⟨e, fun h => readFull_ne_endless (h ▸ he), rfl⟩⟩
  · rename_i header input' hhead
    split
    · rename_i e he
      refine ⟨0, Nat.zero_le _, .inl ⟨e, ?_, rfl⟩⟩
      rintro rfl
      simp only [recordSizes] at he
      split at he <;> cases he
    · rename_i n m hsizes
      obtain ⟨hinput, hlen⟩ := readFull_eq_ok hhead
      obtain ⟨hheader, hn, hm⟩ := recordSizes_eq_ok hlen hsizes
      split
      · rename_i e he
        exact ⟨n, by omega, .inl ⟨e, fun h => readFull_ne_endless (h ▸ he), rfl⟩⟩
      · rename_i nonce input'' hnonce
        split
        · rename_i e he
          exact ⟨n + m, by omega, .inl ⟨e, fun h => readFull_ne_endless (h ▸ he), rfl⟩⟩
        · rename_i sealed rest hsealed
          obtain ⟨hinput', rfl⟩ := readFull_eq_ok hnonce
          obtain ⟨hinput'', rfl⟩ := readFull_eq_ok hsealed
          refine ⟨_, by omega, .inr ⟨nonce, sealed, rest, rfl, ?_⟩⟩
          rw [hinput, hheader, hinput', hinput'', frame]
          simp

variable (opening env key header purpose fuel chunk input written allocated) in
/-- What one round of the decryption can come to. -/
inductive ReadRound : Opened → Prop
  | stopped (e : CheckpointError) (he : e ≠ .endless) (more : List Nat)
    (hmore : ∀ n ∈ more, n ≤ maxSealedSize + maxNonceSize) : ReadRound ⟨.error e, written, allocated ++ more⟩
  | ended (sealed opened : Bytes) (n : Nat) (hn : n ≤ maxSealedSize + maxNonceSize)
    (hchunk : chunk < maxRecords) (hinput : input = frame (checkpointNonce chunk) sealed)
    (hopen : opening key (checkpointNonce chunk) sealed (additionalData header purpose chunk true)
      = some opened) : ReadRound ⟨.ok (), written, allocated ++ [n]⟩
  | torn (sealed opened : Bytes) (k n : Nat) (hn : n ≤ maxSealedSize + maxNonceSize)
    (hchunk : chunk < maxRecords)
    (hopen : opening key (checkpointNonce chunk) sealed (additionalData header purpose chunk false)
      = some opened) : ReadRound ⟨.error .write, written ++ opened.take k, allocated ++ [n]⟩
  | next (sealed opened rest : Bytes) (n : Nat) (hn : n ≤ maxSealedSize + maxNonceSize)
    (hchunk : chunk < maxRecords) (hinput : input = frame (checkpointNonce chunk) sealed ++ rest)
    (hsealed : sealed.length ≠ tagSize)
    (hopen : opening key (checkpointNonce chunk) sealed (additionalData header purpose chunk false)
      = some opened) :
    ReadRound (decryptRecords opening env key header purpose fuel (chunk + 1) rest (written ++ opened)
      (allocated ++ [n]))

theorem requireCiphertextEof_cases (env : Env) (input : Bytes) :
    (requireCiphertextEof env input = .ok () ∧ input = [])
      ∨ ∃ e, e ≠ .endless ∧ requireCiphertextEof env input = .error e := by
  unfold requireCiphertextEof
  split
  · exact .inr ⟨_, by simp, rfl⟩
  · rename_i h
    split
    · exact .inl ⟨rfl, not_not.1 h⟩
    · exact .inr ⟨_, by simp, rfl⟩

/-- One round of the loop, in the order of the code: the count, the context, the record, its nonce, its tag. -/
theorem decryptRecords_round
    (hr : decryptRecords opening env key header purpose (fuel + 1) chunk input written allocated = r) :
    ReadRound opening env key header purpose fuel chunk input written allocated r := by
  have hstop (e : CheckpointError) (he : e ≠ .endless) : ReadRound opening env key header purpose fuel chunk
      input written allocated ⟨.error e, written, allocated⟩ := by
    simpa using ReadRound.stopped e he [] (by simp)
  subst hr
  rw [decryptRecords]
  split
  · exact hstop _ (by simp)
  rename_i hchunk
  rw [not_le] at hchunk
  split
  · exact hstop _ (by simp)
  obtain ⟨n, hn, ⟨e, he, hread⟩ | ⟨nonce, sealed, rest, hread, hinput⟩⟩ := readRecord_cases env input
  · rw [hread]
    exact .stopped e he [n] (by simpa using hn)
  rw [hread]
  have hstop' (e : CheckpointError) (he : e ≠ .endless) : ReadRound opening env key header purpose fuel chunk
      input written allocated ⟨.error e, written, allocated ++ [n]⟩ := .stopped e he [n] (by simpa using hn)
  simp only
  split
  · exact hstop' _ (by simp)
  rename_i hnonce
  obtain rfl := not_not.1 hnonce
  split
  · exact hstop' _ (by simp)
  rename_i opened hopen
  -- a record without plaintext is the last one, and nothing may follow it
  by_cases hlast : sealed.length = tagSize
  · simp only [hlast, decide_true, if_true] at hopen ⊢
    rcases requireCiphertextEof_cases env rest with ⟨hok, rfl⟩ | ⟨e, he, herr⟩
    · rw [hok]
      exact .ended sealed opened n hn hchunk (by simpa using hinput) hopen
    · rw [herr]
      exact hstop' e he
  · simp only [hlast, decide_false, Bool.false_eq_true, if_false] at hopen ⊢
    split
    · exact hstop' _ (by simp)
    split
    · rename_i written' hemit
      unfold emit at hemit
      split at hemit
      · cases hemit
      · rename_i k hfails
        cases hemit
        exact .torn sealed opened k n hn hchunk hopen
    · rename_i written' hemit
      rw [emit_eq_true hemit]
      exact .next sealed opened rest n hn hchunk hinput hlast hopen

/-- No record makes the reader allocate more than the two maxima. -/
theorem decryptRecords_allocated (hall : ∀ n ∈ allocated, n ≤ maxSealedSize + maxNonceSize)
    (hr : decryptRecords opening env key header purpose fuel chunk input written allocated = r) :
    ∀ n ∈ r.allocated, n ≤ maxSealedSize + maxNonceSize := by
  induction fuel generalizing chunk input written allocated with
  | zero =>
    subst hr
    exact hall
  | succ fuel ih =>
    have hgrow : ∀ more : List Nat, (∀ n ∈ more, n ≤ maxSealedSize + maxNonceSize) →
        ∀ n ∈ allocated ++ more, n ≤ maxSealedSize + maxNonceSize := fun more hmore n hn =>
      (List.mem_append.1 hn).elim (hall n) (hmore n)
    cases decryptRecords_round hr with
    | stopped e he more hmore => exact hgrow more hmore
    | ended sealed opened n hn => exact hgrow [n] (by simpa using hn)
    | torn sealed opened k n hn => exact hgrow [n] (by simpa using hn)
    | next sealed opened rest n hn => exact ih (hgrow [n] (by simpa using hn)) rfl

/-- Every round that goes on has read octets. -/
theorem decryptRecords_not_endless (hfuel : input.length < fuel)
    (hr : decryptRecords opening env key header purpose fuel chunk input written allocated = r) :
    r.result ≠ .error .endless := by
  induction fuel generalizing chunk input written allocated with
  | zero => omega
  | succ fuel ih =>
    cases decryptRecords_round hr with
    | stopped e he more hmore => simpa using he
    | ended => simp
    | torn => simp
    | next sealed opened rest n hn hchunk hinput =>
      refine ih ?_ rfl
      rw [hinput, List.length_append, frame, List.length_append, List.length_append,
        length_checkpointNonce, nonceSize] at hfuel
      omega

/-- Opening is inverse to sealing. -/
def Correct (cipher : Cipher) (opening : Opening) : Prop :=
  ∀ key nonce plaintext additional,
    opening key nonce (cipher.sealWith key nonce plaintext additional) additional = some plaintext

theorem readRecord_sealing (plaintext : Bytes) (k : Nat) (last : Bool) (rest : Bytes) :
    let s := sealing cipher key header purpose plaintext k last
    readRecord env (s.frame ++ rest) = (nonceSize + s.sealed.length, .ok (s.nonce, s.sealed, rest)) := by
  intro s
  have hnonce : s.nonce.length = nonceSize := length_checkpointNonce k
  have hsealed : s.sealed.length = (piece plaintext k).length + tagSize := cipher.length_sealWith ..
  have hpiece := length_piece_le plaintext k
  have hmax : chunkSize + tagSize ≤ maxSealedSize ∧ 0 < tagSize := by decide
  rw [← hnonce]
  exact readRecord_frame rest (by rw [hnonce]; decide) (by rw [hsealed]; omega)

/-- Without trouble around it a round takes the frame of a piece off the input. -/
theorem decryptRecords_calm_succ (hcorrect : Correct cipher opening) {plaintext : Bytes} {rest : Bytes} {last : Bool}
    (hlast : last = true ↔ piece plaintext chunk = []) (hchunk : chunk < maxRecords)
    (hnext : last = false → chunk + 1 < maxRecords) :
    let s := sealing cipher key header purpose plaintext chunk last
    decryptRecords opening .calm key header purpose (fuel + 1) chunk (s.frame ++ rest) written allocated
      = if last then ⟨requireCiphertextEof .calm rest, written, allocated ++ [nonceSize + s.sealed.length]⟩
        else decryptRecords opening .calm key header purpose fuel (chunk + 1) rest
          (written ++ piece plaintext chunk) (allocated ++ [nonceSize + s.sealed.length]) := by
  intro s
  have hdec : decide (s.sealed.length = tagSize) = last := by
    have hsealed : s.sealed.length = (piece plaintext chunk).length + tagSize := cipher.length_sealWith ..
    rw [Bool.eq_iff_iff, hlast, decide_eq_true_iff, hsealed, ← List.length_eq_zero_iff]
    omega
  have hopen : opening key s.nonce s.sealed (additionalData header purpose chunk last)
      = some (piece plaintext chunk) := hcorrect _ _ _ _
  have hnonce : ¬ s.nonce ≠ checkpointNonce chunk := not_not.2 rfl
  have hbounds : last = false →
      ¬ ((piece plaintext chunk).length > chunkSize ∨ chunk = maxRecords - 1) := by
    intro h
    have hlen := length_piece_le plaintext chunk
    have hlt := hnext h
    omega
  have hread : readRecord .calm (s.frame ++ rest)
      = (nonceSize + s.sealed.length, .ok (s.nonce, s.sealed, rest)) := readRecord_sealing plaintext chunk last rest
  rw [decryptRecords, if_neg (by omega), hread]
  simp only [hdec, if_neg hnonce, hopen, emit_calm]
  cases last with
  | true => rfl
  | false =>
    simp only [if_neg (hbounds rfl)]
    rfl

/-- The frames of a plaintext are read back. -/
theorem decryptRecords_calm (hcorrect : Correct cipher opening) {plaintext : Bytes} {d : Nat}
    (hd : chunk + d = chunks plaintext.length) (hfuel : d < fuel) (hlimit : chunks plaintext.length < maxRecords)
    (hr : decryptRecords opening .calm key header purpose fuel chunk
      (framesFrom cipher key header purpose plaintext chunk d) written allocated = r) :
    r.result = .ok () ∧ r.written = written ++ slice plaintext (chunk * chunkSize) (d * chunkSize) := by
  induction d generalizing fuel chunk written allocated with
  | zero =>
    obtain ⟨fuel, rfl⟩ := Nat.exists_eq_add_of_lt hfuel
    have hpiece : piece plaintext chunk = [] := piece_eq_nil_iff.2 (by omega)
    rw [framesFrom, ← List.append_nil (Sealing.frame _),
      decryptRecords_calm_succ hcorrect (iff_of_true rfl hpiece) (by omega) (by simp)] at hr
    subst hr
    simp [requireCiphertextEof, Env.calm, slice]
  | succ d ih =>
    obtain ⟨fuel, rfl⟩ := Nat.exists_eq_add_of_lt hfuel
    have hpiece : ¬ piece plaintext chunk = [] := by
      rw [piece_eq_nil_iff]
      omega
    rw [framesFrom, decryptRecords_calm_succ hcorrect (iff_of_false Bool.false_ne_true hpiece) (by omega)
      fun _ => by omega] at hr
    obtain ⟨hok, hwritten⟩ := ih (by omega) (by omega) hr
    refine ⟨hok, ?_⟩
    rw [hwritten, List.append_assoc, piece_append_slice, Nat.succ_mul, Nat.add_comm]

end Reading

/-! ## Authenticity -/

/-- An encryption call with everything it met. -/
structure Attempt where
  env : Env
  salt : Bytes
  plaintext : Bytes
  purpose : Bytes
  length_salt : salt.length = saltSize

section Authenticity

variable (cipher : Cipher) (c : CheckpointEncryptor)

def Attempt.run (a : Attempt) : Sealed := encrypt cipher c a.env a.salt a.plaintext a.purpose

/-- The call as it goes when nothing is in its way. -/
def Attempt.unhindered (a : Attempt) : Sealed := encrypt cipher c .calm a.salt a.plaintext a.purpose

/-- A stream that is accepted is the whole stream of one call with the purpose, as it goes when nothing is in its
way, and what was written is its plaintext; the call itself wrote that stream, or its writer failed. Of a stream
that is not, a prefix of such a plaintext was written. -/
def Authentic (attempts : List Attempt) (stream purpose : Bytes) (d : Opened) : Prop :=
  (d.result = .ok () → ∃ a ∈ attempts, a.purpose = purpose ∧ d.written = a.plaintext
    ∧ (a.unhindered cipher c).result = .ok () ∧ stream = (a.unhindered cipher c).output
    ∧ ((a.run cipher c).result = .ok () ∧ stream = (a.run cipher c).output
      ∨ (a.run cipher c).result = .error .write))
  ∧ (d.result ≠ .ok () → d.written = [] ∨ ∃ a ∈ attempts, a.purpose = purpose ∧ d.written <+: a.plaintext)

/-- Opening succeeds only on what one of the calls sealed. -/
def Ideal (opening : Opening) (attempts : List Attempt) : Prop :=
  ∀ key nonce sealed additional plaintext, opening key nonce sealed additional = some plaintext →
    ∃ a ∈ attempts, ⟨key, nonce, plaintext, additional, sealed⟩ ∈ (a.run cipher c).log

variable {cipher c}

variable {salt header purpose : Bytes} {env : Env} {plaintext : Bytes} {opening : Opening} {attempts : List Attempt}

theorem length_headerOf (h : salt.length = saltSize) : (headerOf c salt).length = headerSize := by
  simp [headerOf, headerSize, c.length_keyId, h]
  omega

theorem headerOf_inj {salt' : Bytes} (h : headerOf c salt = headerOf c salt') : salt = salt' :=
  List.append_cancel_left h

/-- The associated data of a record determines everything it is made of. -/
theorem additionalData_inj {header' purpose' : Bytes} {k k' : Nat} {last last' : Bool}
    (hlen : header.length = header'.length) (hk : k < maxRecords) (hk' : k' < maxRecords)
    (h : additionalData header purpose k last = additionalData header' purpose' k' last') :
    header = header' ∧ purpose = purpose' ∧ k = k' ∧ last = last' := by
  have htotal := congrArg List.length h
  simp only [additionalData, List.length_append, length_beBytes, List.length_singleton] at htotal
  obtain ⟨h, hflag⟩ := List.append_inj' h (by simp)
  obtain ⟨h, hchunk⟩ := List.append_inj' h (by simp)
  obtain ⟨h, hpurpose⟩ := List.append_inj' h (by omega)
  obtain ⟨h, -⟩ := List.append_inj' h (by simp)
  refine ⟨h, hpurpose, ?_, ?_⟩
  · have hwide : maxRecords < 256 ^ 8 := by decide
    have := congrArg beNat hchunk
    rwa [beNat_beBytes (by omega), beNat_beBytes (by omega)] at this
  · cases last <;> cases last' <;> simp_all

/-- A call stops before its first chunk, or is the run of its chunks behind the header. -/
theorem encrypt_cases (cipher : Cipher) (c : CheckpointEncryptor) (env : Env) (salt plaintext purpose : Bytes) :
    (∃ e output, e ≠ .endless ∧ encrypt cipher c env salt plaintext purpose = ⟨.error e, output, []⟩)
      ∨ encrypt cipher c env salt plaintext purpose
        = encryptChunks cipher env (objectKey cipher c (headerOf c salt) purpose) (headerOf c salt) purpose
            (maxRecords + 1) 0 (plaintext.drop (0 * chunkSize)) (headerOf c salt) [] := by
  unfold encrypt
  split
  · exact .inl ⟨_, _, by simp, rfl⟩
  cases hemit : emit env (headerOf c salt) [] with
  | mk accepted output =>
    cases accepted with
    | false => exact .inl ⟨.write, output, by simp, by simp only [hemit]⟩
    | true =>
      right
      simp only [hemit, emit_eq_true hemit, Nat.zero_mul, List.drop_zero, List.nil_append]

/-- The frames behind the header. -/
def completeStream (cipher : Cipher) (c : CheckpointEncryptor) (salt plaintext purpose : Bytes) : Bytes :=
  headerOf c salt ++ framesFrom cipher (objectKey cipher c (headerOf c salt) purpose) (headerOf c salt)
    purpose plaintext 0 (chunks plaintext.length)

theorem encrypt_log {s : Sealing} {r : Sealed} (hr : encrypt cipher c env salt plaintext purpose = r) (hs : s ∈ r.log) :
    ∃ k last, k < maxRecords
      ∧ s = sealing cipher (objectKey cipher c (headerOf c salt) purpose) (headerOf c salt) purpose
          plaintext k last
      ∧ (last = true → k = chunks plaintext.length
          ∧ (r.result = .ok () ∨ r.result = .error .write)) := by
  rcases encrypt_cases cipher c env salt plaintext purpose with ⟨e, output, -, h⟩ | h
  · rw [← hr, h] at hs
    cases hs
  · rcases encryptChunks_log _ _ _ _ (h.symm.trans hr) (fun _ => Nat.zero_le _) hs with hnil | hsealing
    · cases hnil
    · exact hsealing

theorem encrypt_ok {r : Sealed} (hr : encrypt cipher c env salt plaintext purpose = r) (hok : r.result = .ok ()) :
    r.output = completeStream cipher c salt plaintext purpose := by
  rcases encrypt_cases cipher c env salt plaintext purpose with ⟨e, output, -, h⟩ | h
  · rw [← hr, h] at hok
    cases hok
  · exact (encryptChunks_ok (h.symm.trans hr) hok).2 (Nat.zero_le _)

theorem encrypt_calm (hkey : c.key ≠ []) (hlimit : chunks plaintext.length < maxRecords) :
    (encrypt cipher c .calm salt plaintext purpose).result = .ok () := by
  have hlen : ¬ c.key.length = 0 := by rwa [List.length_eq_zero_iff]
  have h : encrypt cipher c .calm salt plaintext purpose
      = encryptChunks cipher .calm (objectKey cipher c (headerOf c salt) purpose) (headerOf c salt) purpose
          (maxRecords + 1) 0 (plaintext.drop (0 * chunkSize)) (headerOf c salt) [] := by
    simp only [encrypt, if_neg hlen, emit_calm, Nat.zero_mul, List.drop_zero, List.nil_append]
  rw [h]
  exact encryptChunks_calm (Nat.zero_add _) (by omega) hlimit

/-- Where opening is ideal, a record of the stream is the record of one call at its own place. -/
theorem Ideal.record (hideal : Ideal cipher c opening attempts) {key sealed opened : Bytes} {chunk : Nat}
    {last : Bool} (hheader : header.length = headerSize) (hchunk : chunk < maxRecords)
    (hopen : opening key (checkpointNonce chunk) sealed (additionalData header purpose chunk last)
      = some opened) :
    ∃ a ∈ attempts, headerOf c a.salt = header ∧ a.purpose = purpose ∧ opened = piece a.plaintext chunk
      ∧ sealed = (sealing cipher key header purpose a.plaintext chunk last).sealed
      ∧ (last = true → chunk = chunks a.plaintext.length
          ∧ ((a.run cipher c).result = .ok () ∨ (a.run cipher c).result = .error .write)) := by
  obtain ⟨a, ha, hlog⟩ := hideal _ _ _ _ _ hopen
  obtain ⟨k, last', hk, hs, hend⟩ := encrypt_log rfl hlog
  simp only [sealing, Sealing.mk.injEq] at hs
  obtain ⟨hkey, hnonce, hpiece, hdata, hsealed⟩ := hs
  obtain ⟨rfl, rfl, rfl, rfl⟩ :=
    additionalData_inj (by rw [hheader, length_headerOf a.length_salt]) hchunk hk hdata
  subst hkey
  exact ⟨a, ha, rfl, rfl, hpiece, hsealed, hend⟩

/-- Opens what the calls have sealed. -/
def recorded (cipher : Cipher) (c : CheckpointEncryptor) (attempts : List Attempt) : Opening :=
  fun key nonce sealed additional =>
    ((attempts.flatMap fun a => (a.run cipher c).log).find? fun s =>
      s.key = key ∧ s.nonce = nonce ∧ s.sealed = sealed ∧ s.additional = additional).map Sealing.plaintext

/-- The assumption on opening can be met for every history of calls. -/
theorem recorded_ideal : Ideal cipher c (recorded cipher c attempts) attempts := by
  intro key nonce sealed additional plaintext h
  obtain ⟨s, hs, rfl⟩ := Option.map_eq_some_iff.1 h
  have hfound := List.find?_some hs
  obtain ⟨a, ha, hlog⟩ := List.mem_flatMap.1 (List.mem_of_find?_eq_some hs)
  obtain ⟨rfl, rfl, rfl, rfl⟩ := of_decide_eq_true hfound
  exact ⟨a, ha, hlog⟩

theorem salt_unique (hsalts : (attempts.map Attempt.salt).Nodup) {a b : Attempt} (ha : a ∈ attempts)
    (hb : b ∈ attempts) (h : headerOf c a.salt = headerOf c b.salt) : a = b :=
  List.inj_on_of_nodup_map hsalts ha hb (headerOf_inj h)

/-- What is read from record `chunk` on is the rest of one call, or breaks off within it. -/
theorem decryptRecords_authentic (hsalts : (attempts.map Attempt.salt).Nodup)
    (hideal : Ideal cipher c opening attempts) {key : Bytes} (hheader : header.length = headerSize) {fuel chunk : Nat}
    {input written : Bytes} {allocated : List Nat} {r : Opened}
    (hr : decryptRecords opening env key header purpose fuel chunk input written allocated = r) :
    (r.result = .ok () → ∃ a ∈ attempts, headerOf c a.salt = header ∧ a.purpose = purpose
      ∧ chunk ≤ chunks a.plaintext.length ∧ chunks a.plaintext.length < maxRecords
      ∧ input = framesFrom cipher key header purpose a.plaintext chunk (chunks a.plaintext.length - chunk)
      ∧ r.written = written ++ slice a.plaintext (chunk * chunkSize)
          ((chunks a.plaintext.length - chunk) * chunkSize)
      ∧ ((a.run cipher c).result = .ok () ∨ (a.run cipher c).result = .error .write))
    ∧ (r.result ≠ .ok () → r.written = written ∨ ∃ a ∈ attempts, headerOf c a.salt = header
      ∧ a.purpose = purpose ∧ ∃ n, r.written = written ++ slice a.plaintext (chunk * chunkSize) n) := by
  induction fuel generalizing chunk input written allocated with
  | zero =>
    subst hr
    exact ⟨fun h => (by cases h), fun _ => .inl rfl⟩
  | succ fuel ih =>
    cases decryptRecords_round hr with
    | stopped e he more hmore => exact ⟨fun h => (by cases h), fun _ => .inl rfl⟩
    | ended sealed opened n hn hchunk hinput hopen =>
      refine ⟨fun _ => ?_, fun h => absurd rfl h⟩
      obtain ⟨a, ha, hsalt, hpurpose, -, hsealed, hend⟩ := hideal.record hheader hchunk hopen
      obtain ⟨rfl, hreached⟩ := hend rfl
      refine ⟨a, ha, hsalt, hpurpose, le_rfl, hchunk, ?_, ?_, hreached⟩
      · rw [hinput, hsealed, Nat.sub_self]
        rfl
      · simp [slice]
    | torn sealed opened k n hn hchunk hopen =>
      refine ⟨fun h => (by cases h), fun _ => .inr ?_⟩
      obtain ⟨a, ha, hsalt, hpurpose, rfl, -, -⟩ := hideal.record hheader hchunk hopen
      exact ⟨a, ha, hsalt, hpurpose, min k chunkSize, by simp [piece, slice, List.take_take]⟩
    | next sealed opened rest n hn hchunk hinput hsealed hopen =>
      obtain ⟨a, ha, hsalt, hpurpose, rfl, hframe, -⟩ := hideal.record hheader hchunk hopen
      -- a record that is not empty is not the end record
      have hpiece : ¬ chunks a.plaintext.length ≤ chunk := fun h => hsealed <| by
        rw [hframe, sealing, cipher.length_sealWith, piece_eq_nil_iff.2 h]
        rfl
      obtain ⟨hok, hfail⟩ := ih rfl
      refine ⟨fun h => ?_, fun h => .inr ?_⟩
      · obtain ⟨b, hb, hsalt', hpurpose', hle, hlimit, hinput', hwritten, hreached⟩ := hok h
        -- both records have the header of one salt, so they are of one call
        obtain rfl := salt_unique hsalts ha hb (hsalt.trans hsalt'.symm)
        have hd : chunks a.plaintext.length - chunk = (chunks a.plaintext.length - (chunk + 1)) + 1 := by omega
        refine ⟨a, ha, hsalt, hpurpose, by omega, hlimit, ?_, ?_, hreached⟩
        · rw [hinput, hinput', hframe, hd]
          rfl
        · rw [hwritten, List.append_assoc, piece_append_slice, hd, Nat.succ_mul, Nat.add_comm]
      · rcases hfail h with hwritten | ⟨b, hb, hsalt', hpurpose', n, hwritten⟩
        · exact ⟨a, ha, hsalt, hpurpose, chunkSize, hwritten⟩
        · obtain rfl := salt_unique hsalts ha hb (hsalt.trans hsalt'.symm)
          refine ⟨a, ha, hsalt, hpurpose, chunkSize + n, ?_⟩
          rw [hwritten, List.append_assoc, piece_append_slice]

/-- A reader refuses the header, or goes through the records behind it. -/
theorem decrypt_cases (cipher : Cipher) (opening : Opening) (c : CheckpointEncryptor) (env : Env)
    (stream purpose : Bytes) :
    (∃ e, e ≠ .endless ∧ decrypt cipher opening c env stream purpose = ⟨.error e, [], []⟩)
      ∨ c.key ≠ [] ∧ ∃ header input, stream = header ++ input ∧ header.length = headerSize
        ∧ decrypt cipher opening c env stream purpose
          = decryptRecords opening env (objectKey cipher c header purpose) header purpose (input.length + 1) 0
              input [] [] := by
  unfold decrypt
  split
  · exact .inl ⟨_, by simp, rfl⟩
  rename_i hkey
  split
  · rename_i e he
    refine .inl ⟨_, ?_, rfl⟩
    split <;> simp
  rename_i header input hheader
  obtain ⟨hstream, hlen⟩ := readFull_eq_ok hheader
  split
  · exact .inl ⟨_, by simp, rfl⟩
  split
  · exact .inl ⟨_, by simp, rfl⟩
  exact .inr ⟨fun h => hkey (List.length_eq_zero_iff.2 h), header, input, hstream, hlen, rfl⟩

/-- Behind an ideal cipher a whole stream is that of one call, or breaks off within its plaintext. The records
are `decryptRecords_authentic`; what is added here is the header. -/
theorem decrypt_authentic (hsalts : (attempts.map Attempt.salt).Nodup) (hideal : Ideal cipher c opening attempts)
    (env : Env) (stream purpose : Bytes) :
    Authentic cipher c attempts stream purpose (decrypt cipher opening c env stream purpose) := by
  generalize hd : decrypt cipher opening c env stream purpose = d
  rcases decrypt_cases cipher opening c env stream purpose with
    ⟨e, -, h⟩ | ⟨hkey, header, input, hstream, hheader, h⟩
  · cases hd.symm.trans h
    exact ⟨nofun, fun _ => .inl rfl⟩
  obtain ⟨hok, hfail⟩ := decryptRecords_authentic hsalts hideal hheader (h.symm.trans hd)
  refine ⟨fun hresult => ?_, fun hresult => ?_⟩
  · obtain ⟨a, ha, rfl, rfl, -, hlimit, hinput, hwritten, hreached⟩ := hok hresult
    have hcalm : (a.unhindered cipher c).result = .ok () := encrypt_calm hkey hlimit
    have hcomplete : stream = completeStream cipher c a.salt a.plaintext a.purpose := by
      rw [hstream, hinput]
      rfl
    refine ⟨a, ha, rfl, ?_, hcalm, hcomplete.trans (encrypt_ok rfl hcalm).symm, ?_⟩
    · rw [hwritten, List.nil_append, Nat.sub_zero, slice_chunks]
    · exact hreached.imp_left fun h => ⟨h, hcomplete.trans (encrypt_ok rfl h).symm⟩
  · rcases hfail hresult with hwritten | ⟨a, ha, -, hpurpose, n, hwritten⟩
    · exact .inl hwritten
    · refine .inr ⟨a, ha, hpurpose, ?_⟩
      rw [hwritten, List.nil_append, Nat.zero_mul]
      exact List.take_prefix n _

theorem decrypt_completeStream (hcorrect : Correct cipher opening) (hkey : c.key ≠ [])
    (hsalt : salt.length = saltSize) (hlimit : chunks plaintext.length < maxRecords) {r : Opened}
    (hr : decrypt cipher opening c .calm (completeStream cipher c salt plaintext purpose) purpose = r) :
    r.result = .ok () ∧ r.written = plaintext := by
  have hlen : ¬ c.key.length = 0 := by rwa [List.length_eq_zero_iff]
  have hmagic : ¬ (headerOf c salt).take magic.length ≠ magic := by simp [headerOf]
  have hid : ¬ slice (headerOf c salt) magic.length keyIdSize ≠ c.keyId :=
    not_not.2 (slice_of_split magic rfl rfl c.length_keyId.symm)
  rw [decrypt, if_neg hlen, completeStream, readFull_append (length_headerOf hsalt)] at hr
  simp only [if_neg hmagic, if_neg hid] at hr
  have hfuel : chunks plaintext.length < (framesFrom cipher (objectKey cipher c (headerOf c salt) purpose)
      (headerOf c salt) purpose plaintext 0 (chunks plaintext.length)).length + 1 := by
    rw [length_framesFrom _ _ _ _ _ (Nat.zero_add _)]
    omega
  obtain ⟨hok, hwritten⟩ := decryptRecords_calm hcorrect (Nat.zero_add _) hfuel hlimit hr
  rw [List.nil_append, slice_chunks] at hwritten
  exact ⟨hok, hwritten⟩

theorem encryptedCheckpointSize_eq {length : Nat} (hlimit : chunks length < maxRecords) :
    encryptedCheckpointSize length = .ok (headerSize + (length + (chunks length + 1) * 36) : Nat) := by
  have hbound : length ≤ chunks length * chunkSize := chunks_le_iff.1 le_rfl
  have hrecords : (length : Int) / (chunkSize : Nat) + (if (length : Int) % (chunkSize : Nat) ≠ 0 then 1 else 0) + 1
      = ((chunks length + 1 : Nat) : Int) := by
    unfold chunks
    push_cast
    norm_cast
  have hoverhead : (8 + nonceSize + tagSize : Int) = 36 := by decide
  rw [chunkSize_eq] at hbound
  rw [maxRecords_eq] at hlimit
  simp only [encryptedCheckpointSize, hrecords, hoverhead, headerSize_eq, maxRecords_eq]
  rw [if_neg (by omega), if_neg (by omega), if_neg (by omega), if_neg (by omega)]
  congr 1
  push_cast
  ring

/-- What decryption is worth, for every cipher. Behind a correct one it gives back what was encrypted, in as
many octets as announced. Behind an ideal one it accepts only the whole stream of one call with that purpose,
and before it fails it has written only a prefix of such a call's plaintext. Both directions come to an end,
and no record makes decryption allocate more than the two maxima. -/
theorem checkpoint_streams_authentic (cipher : Cipher) (c : CheckpointEncryptor) :
    (∀ opening, Correct cipher opening → c.key ≠ [] → ∀ salt plaintext purpose, salt.length = saltSize →
      plaintext.length ≤ (maxRecords - 1) * chunkSize →
      let e := encrypt cipher c .calm salt plaintext purpose
      let d := decrypt cipher opening c .calm e.output purpose
      e.result = .ok () ∧ encryptedCheckpointSize plaintext.length = .ok e.output.length
        ∧ d.result = .ok () ∧ d.written = plaintext)
    ∧ (∀ opening attempts, (attempts.map Attempt.salt).Nodup → Ideal cipher c opening attempts →
      ∀ env stream purpose,
        Authentic cipher c attempts stream purpose (decrypt cipher opening c env stream purpose))
    ∧ (∀ opening env stream purpose,
      let d := decrypt cipher opening c env stream purpose
      d.result ≠ .error .endless ∧ ∀ n ∈ d.allocated, n ≤ maxSealedSize + maxNonceSize)
    ∧ ∀ env salt plaintext purpose, (encrypt cipher c env salt plaintext purpose).result ≠ .error .endless := by
  refine ⟨fun opening hcorrect hkey salt plaintext purpose hsalt hlimit => ?_,
    fun opening attempts hsalts hideal env stream purpose => ?_, fun opening env stream purpose => ?_,
    fun env salt plaintext purpose => ?_⟩
  -- the last of the records is the one that ends the stream
  · have hchunks : chunks plaintext.length < maxRecords := by
      have hle := chunks_le_iff.2 hlimit
      have hpos : 0 < maxRecords := by decide
      omega
    have hok : (encrypt cipher c .calm salt plaintext purpose).result = .ok () := encrypt_calm hkey hchunks
    have houtput := encrypt_ok rfl hok
    intro e d
    refine ⟨hok, ?_, ?_⟩
    · rw [encryptedCheckpointSize_eq hchunks, houtput, completeStream, List.length_append,
        length_headerOf hsalt, length_framesFrom _ _ _ _ _ (Nat.zero_add _), Nat.zero_mul, Nat.sub_zero]
    · exact decrypt_completeStream hcorrect hkey hsalt hchunks (by rw [← houtput])
  · exact decrypt_authentic hsalts hideal env stream purpose
  · intro d
    rcases decrypt_cases cipher opening c env stream purpose with ⟨e, he, h⟩ | ⟨-, header, input, -, -, h⟩
    · simp [d, h, he]
    · exact ⟨decryptRecords_not_endless (Nat.lt_succ_self _) h.symm,
        decryptRecords_allocated (by simp) h.symm⟩
  · rcases encrypt_cases cipher c env salt plaintext purpose with ⟨e, output, he, h⟩ | h
    · simp [h, he]
    · exact encryptChunks_not_endless (Nat.zero_le _) (by omega) h.symm

end Authenticity

/-- A stand-in for AES-GCM that appends a tag of zeros. -/
def demoCipher : Cipher := ⟨fun _ _ plaintext _ => plaintext ++ List.replicate tagSize 0, fun _ _ _ => [],
  fun _ _ _ _ => by simp⟩

def demoEncryptor : CheckpointEncryptor := ⟨[1], List.replicate 16 7, rfl⟩

/-- A call that succeeds, and one with another purpose whose reader fails. -/
def demoAttempts : List Attempt :=
  [⟨.calm, List.replicate 32 1, [1, 2, 3], ascii "memory", rfl⟩,
    ⟨⟨fun _ => false, fun _ _ => none, .failure⟩, List.replicate 32 2, [4, 5], ascii "state", rfl⟩]

def demoOpening : Opening := recorded demoCipher demoEncryptor demoAttempts

def demoStream : Bytes :=
  (encrypt demoCipher demoEncryptor .calm (List.replicate 32 1) [1, 2, 3] (ascii "memory")).output

theorem checkpoint_streams_authentic_demo :
    (decrypt demoCipher (fun _ _ sealed _ => some (sealed.take (sealed.length - tagSize))) demoEncryptor .calm
        demoStream (ascii "memory")).written = [1, 2, 3]
      ∧ (∃ a ∈ demoAttempts, a.purpose = ascii "memory"
        ∧ demoStream = (a.unhindered demoCipher demoEncryptor).output)
      ∧ ∃ a ∈ demoAttempts, a.purpose = ascii "memory"
        ∧ (decrypt demoCipher demoOpening demoEncryptor .calm (demoStream.take 130) (ascii "memory")).written
          <+: a.plaintext := by
  obtain ⟨hround, hauthentic, -⟩ := checkpoint_streams_authentic demoCipher demoEncryptor
  refine ⟨?_, ?_, ?_⟩
  · refine (hround _ ?_ (by decide) (List.replicate 32 1) [1, 2, 3] (ascii "memory") rfl (by decide)).2.2.2
    intro key nonce plaintext additional
    simp [demoCipher]
  · have haccepted := (hauthentic demoOpening demoAttempts (by decide) recorded_ideal .calm demoStream
      (ascii "memory")).1 (by decide +kernel)
    obtain ⟨a, ha, hpurpose, -, -, hstream, -⟩ := haccepted
    exact ⟨a, ha, hpurpose, hstream⟩
  · have hrejected := (hauthentic demoOpening demoAttempts (by decide) recorded_ideal .calm
      (demoStream.take 130) (ascii "memory")).2 (by decide +kernel)
    exact hrejected.resolve_left (by decide +kernel)

end Helmr.Checkpoint
