import Helmr.Filepack.DecodeSpec
import Helmr.Filepack.Pack

/-!
# Filepack — a pack is its file

A pack has one record for each chunk that is not all zero, whatever the filesystem says about extents:
`records` is that list, the packer writes it (`writeFilepackData_eq`) and the decoder reads it back into the
chunks it came from (`decodeRecords_records`). Chunks without a record are zero in a file that starts out empty.
-/

namespace Helmr.Filepack

open Wire Wire.Json Fallible Hoare

variable {ε : Type}

/-- The codec: what is encoded is decoded into any slice that can hold it, and is not much longer. -/
structure Codec (ε : Type) where
  encodeAll : Bytes → Bytes
  decodeAll : Bytes → Nat → Except ε Bytes
  maxEncodedSize : Nat → Nat
  decode_encode : ∀ data capacity, data.length ≤ capacity → decodeAll (encodeAll data) capacity = .ok data
  encode_ne : ∀ data, data ≠ [] → encodeAll data ≠ []
  length_encode : ∀ data, (encodeAll data).length ≤ maxEncodedSize data.length
  bound : ∀ n ≤ chunkBytes, maxEncodedSize n ≤ chunkBytes + 256

/-- The filesystem tells the truth: there is nothing but zeros before the data it finds, and the data it finds is
not empty. Or it cannot tell. -/
structure Truthful (file : File ε) : Prop where
  found : ∀ call offset start, file.seekData call offset = .found start →
    offset ≤ start ∧ ∀ p, offset ≤ p → p < start → p < file.size → file.content p = 0
  noData : ∀ call offset, file.seekData call offset = .noData → ∀ p, offset ≤ p → p < file.size → file.content p = 0
  data : ∀ call offset cause, file.seekData call offset ≠ .failed cause
  hole : ∀ call offset start, file.seekData call offset = .found start → start < file.size →
    file.seekHole call start = .unsupported ∨ ∃ stop, file.seekHole call start = .found stop ∧ start < stop

theorem chunkBytes_eq : chunkBytes = 4194304 := by
  unfold chunkBytes
  rfl

theorem chunkBytes_pos : 0 < chunkBytes := by
  rw [chunkBytes_eq]
  decide

/-! ## Records of chunks -/

section Records

variable (codec : Codec ε) (content : Content) (size : Nat)

def chunkAt (k : Nat) : Bytes := window content (k * chunkBytes) (min chunkBytes (size - k * chunkBytes))

/-- The record of a chunk. -/
def record (k : Nat) : Bytes :=
  if allZero (chunkAt content size k) then []
  else filepackRecordData :: beBytes 8 (k * chunkBytes) ++ beBytes 4 (chunkAt content size k).length ++
    beBytes 8 (codec.encodeAll (chunkAt content size k)).length ++ codec.encodeAll (chunkAt content size k)

/-- The records of `count` chunks. -/
def records (first count : Nat) : Bytes := (List.range' first count).flatMap (record codec content size)

/-- The chunks of a file. -/
def chunks : Nat := (size + (chunkBytes - 1)) / chunkBytes

theorem records_add (first m n : Nat) :
    records codec content size first (m + n) =
      records codec content size first m ++ records codec content size (first + m) n := by
  unfold records
  rw [← List.flatMap_append, List.range'_append_1]

theorem records_succ (first n : Nat) :
    records codec content size first (n + 1) =
      record codec content size first ++ records codec content size (first + 1) n := by
  rw [Nat.add_comm n 1, records_add]
  congr 1
  show (List.range' first 1).flatMap _ = _
  simp

theorem record_zero {k : Nat} (h : ∀ p, k * chunkBytes ≤ p → p < (k + 1) * chunkBytes → p < size → content p = 0) :
    record codec content size k = [] := by
  have hzero : allZero (chunkAt content size k) = true := by
    unfold allZero
    rw [List.all_eq_true]
    intro b hb
    obtain ⟨i, hi⟩ := List.mem_iff_getElem?.mp hb
    have hlt : i < min chunkBytes (size - k * chunkBytes) := by
      by_contra hge
      rw [chunkAt, getElem?_window_ge _ _ (not_lt.mp hge)] at hi
      cases hi
    rw [chunkAt, getElem?_window _ _ hlt, Option.some.injEq] at hi
    rw [← hi, decide_eq_true_eq]
    apply h
    · omega
    · rw [Nat.succ_mul]
      omega
    · omega
  unfold record
  rw [if_pos hzero]

theorem records_zero {first count : Nat}
    (h : ∀ p, first * chunkBytes ≤ p → p < (first + count) * chunkBytes → p < size → content p = 0) :
    records codec content size first count = [] := by
  induction count generalizing first with
  | zero => rfl
  | succ count ih =>
    rw [records_succ, record_zero, ih, List.append_nil]
    · intro p hlo hhi
      apply h p
      · rw [Nat.succ_mul] at hlo
        omega
      · rwa [← Nat.add_assoc, Nat.add_right_comm]
    · intro p hlo hhi
      apply h p hlo
      refine lt_of_lt_of_le hhi (Nat.mul_le_mul_right _ ?_)
      omega

theorem length_chunkAt (k : Nat) : (chunkAt content size k).length = min chunkBytes (size - k * chunkBytes) :=
  length_window _ _ _

end Records

/-! ## Chunks of a file -/

theorem le_chunks (size : Nat) : size ≤ chunks size * chunkBytes := by
  unfold chunks chunkBytes
  omega

theorem chunk_lt {size k : Nat} : k < chunks size ↔ k * chunkBytes < size := by
  unfold chunks chunkBytes
  omega

theorem chunks_le (size : Nat) : chunks size ≤ size := by
  unfold chunks chunkBytes
  omega

theorem roundUp_eq {size stop : Nat} (h : stop ≤ size) :
    roundUp size stop = min (chunks stop * chunkBytes) size := by
  unfold roundUp chunks chunkBytes
  split_ifs <;> omega

theorem roundDown_eq {size start : Nat} (h : start < size) :
    start - start % chunkBytes = min (start / chunkBytes * chunkBytes) size := by
  unfold chunkBytes
  omega

/-- The chunks of a range of data: from that of its start to that of its end. -/
theorem range_chunks {size first start stop : Nat} (hsize : start < size) (hstop : start < stop)
    (hfirst : first * chunkBytes ≤ start) :
    first ≤ start / chunkBytes ∧ start / chunkBytes < chunks (min stop size) ∧
      chunks (min stop size) ≤ chunks size := by
  unfold chunks chunkBytes at *
  omega

/-- A chunk at an offset of a file, with what it is encoded as. -/
structure Encodes (codec : Codec ε) (size offset : Nat) (chunk encoded : Bytes) : Prop where
  inside : offset < size
  aligned : offset % 4194304 = 0
  length : chunk.length = min 4194304 (size - offset)
  nonempty : 0 < encoded.length
  bound : encoded.length ≤ 4194560
  decodes : codec.decodeAll encoded chunk.length = .ok chunk

theorem encodes_chunkAt (codec : Codec ε) (content : Content) (size : Nat) {k : Nat} (hk : k < chunks size)
    (hchunk : ¬allZero (chunkAt content size k) = true) :
    Encodes codec size (k * chunkBytes) (chunkAt content size k) (codec.encodeAll (chunkAt content size k)) := by
  have hlength := length_chunkAt content size k
  have hle : (chunkAt content size k).length ≤ chunkBytes := by
    rw [hlength]
    exact Nat.min_le_left _ _
  have hne : chunkAt content size k ≠ [] := by
    intro hnil
    rw [hnil] at hchunk
    exact hchunk rfl
  refine ⟨chunk_lt.mp hk, ?_, ?_, List.length_pos_of_ne_nil (codec.encode_ne _ hne), ?_,
    codec.decode_encode _ _ (le_refl _)⟩
  · rw [chunkBytes_eq]
    exact Nat.mul_mod_left _ _
  · rw [hlength, chunkBytes_eq]
  · have hbound := (codec.length_encode (chunkAt content size k)).trans (codec.bound _ hle)
    rwa [chunkBytes_eq] at hbound

/-! ## Packing -/

section Packing

variable (codec : Codec ε) {file : File ε}

theorem writeChunk_eq {k : Nat} (hk : k * chunkBytes < file.size) :
    writeChunk codec.encodeAll (k * chunkBytes) (min chunkBytes (file.size - k * chunkBytes))
        (chunkAt file.content file.size k) =
      (.ok (record codec file.content file.size k) : Except (PackError ε) Bytes) := by
  unfold writeChunk record
  split_ifs with hzero
  · rfl
  · have h := encodes_chunkAt codec file.content file.size (chunk_lt.mpr hk) hzero
    have hnonempty := h.nonempty
    have hbound := h.bound
    have hpositive := chunkBytes_pos
    have hraw : ¬(min chunkBytes (file.size - k * chunkBytes) = 0 ∨
        min chunkBytes (file.size - k * chunkBytes) > chunkBytes) := by
      omega
    have hcompressed : ¬((codec.encodeAll (chunkAt file.content file.size k)).length = 0 ∨
        ((codec.encodeAll (chunkAt file.content file.size k)).length : Int) > maxFilepackEncodedChunk.toInt) := by
      rw [toInt_maxEncoded]
      omega
    unfold writeFilepackDataRecord
    rw [reject_false hraw, ok_bind, reject_false hcompressed, ok_bind, ← length_chunkAt]
    rfl

/-- The arithmetic of one round of a scan, with the offset and what is left after it as they are. -/
theorem scan_step {offset left chunk size : Nat} (hsize : offset < size) (hchunk : 0 < chunk) :
    offset < min (offset + left + chunk) size ∧
      min (min (offset + left + chunk) size - offset) chunk = min chunk (size - offset) ∧
      offset + min chunk (size - offset) ≤ size ∧
      offset + min chunk (size - offset) = min (offset + chunk) size := by
  omega

/-- A range of whole chunks. -/
theorem scanAndWriteFilepackRange_eq {fuel first count : Nat} (hfuel : count < fuel)
    (hcount : first + count ≤ chunks file.size) :
    scanAndWriteFilepackRange codec.encodeAll file fuel (min (first * chunkBytes) file.size)
      (min ((first + count) * chunkBytes) file.size) = .ok (records codec file.content file.size first count) := by
  induction count generalizing fuel first with
  | zero =>
    obtain ⟨fuel, rfl⟩ : ∃ n, fuel = n + 1 := ⟨fuel - 1, by omega⟩
    unfold scanAndWriteFilepackRange
    rw [Nat.add_zero, if_neg (lt_irrefl _)]
    rfl
  | succ count ih =>
    obtain ⟨fuel, rfl⟩ : ∃ n, fuel = n + 1 := ⟨fuel - 1, by omega⟩
    have hfirst : first * chunkBytes < file.size := chunk_lt.mp (by omega)
    have hstop : (first + (count + 1)) * chunkBytes = first * chunkBytes + count * chunkBytes + chunkBytes := by ring
    have hsecond : (first + 1) * chunkBytes = first * chunkBytes + chunkBytes := by ring
    obtain ⟨hlt, hlength, hle, hnext⟩ := @scan_step _ (count * chunkBytes) _ _ hfirst chunkBytes_pos
    rw [← hstop] at hlt hlength
    rw [← hsecond] at hnext
    have hread : readFullAt file (first * chunkBytes) (min chunkBytes (file.size - first * chunkBytes)) =
        .ok (chunkAt file.content file.size first) := if_pos hle
    have hrest : scanAndWriteFilepackRange codec.encodeAll file fuel (min ((first + 1) * chunkBytes) file.size)
        (min ((first + (count + 1)) * chunkBytes) file.size) =
          .ok (records codec file.content file.size (first + 1) count) := by
      rw [show first + (count + 1) = first + 1 + count by omega]
      exact ih (by omega) (by omega)
    unfold scanAndWriteFilepackRange
    rw [Nat.min_eq_left hfirst.le, if_pos hlt]
    dsimp only
    rw [hlength, hread, ok_bind, writeChunk_eq codec hfirst, ok_bind, hnext, hrest, ok_bind, records_succ]
    rfl

/-- The chunks from one up to another. -/
theorem scan_range {first last : Nat} (hfirst : first ≤ last) (hlast : last ≤ chunks file.size) :
    scanAndWriteFilepackRange codec.encodeAll file (file.size + 1) (min (first * chunkBytes) file.size)
        (min (last * chunkBytes) file.size) =
      .ok (records codec file.content file.size first (last - first)) := by
  have hsum : first + (last - first) = last := Nat.add_sub_cancel' hfirst
  have hle := chunks_le file.size
  have hscan : scanAndWriteFilepackRange codec.encodeAll file (file.size + 1) (min (first * chunkBytes) file.size)
      (min ((first + (last - first)) * chunkBytes) file.size) = _ :=
    scanAndWriteFilepackRange_eq codec (by omega) (by omega)
  rwa [hsum] at hscan

/-- The rest of the file, scanned as a whole. -/
theorem scan_rest {first : Nat} (hfirst : first ≤ chunks file.size) :
    scanAndWriteFilepackRange codec.encodeAll file (file.size + 1) (min (first * chunkBytes) file.size) file.size =
      .ok (records codec file.content file.size first (chunks file.size - first)) := by
  have hscan := scan_range codec hfirst (le_refl _)
  rwa [Nat.min_eq_right (le_chunks _)] at hscan

theorem clamp_eq (size stop : Nat) : (if stop > size then size else stop) = min stop size := by
  split_ifs <;> omega

/-- A range beyond an offset leaves fewer chunks. -/
theorem fewer_chunks {count first next fuel : Nat} (h : count - first < fuel + 1) (hnext : first < next)
    (hle : next ≤ count) : count - next < fuel := by
  omega

/-- The records of all chunks, split around a range before which there are only zeros. -/
theorem records_split {first k b count : Nat} (hfk : first ≤ k) (hkb : k ≤ b) (hbc : b ≤ count)
    (hzero : records codec file.content file.size first (k - first) = []) :
    records codec file.content file.size first (count - first) =
      records codec file.content file.size k (b - k) ++ records codec file.content file.size b (count - b) := by
  rw [show count - first = k - first + (b - k + (count - b)) by omega, records_add, hzero, List.nil_append,
    show first + (k - first) = k by omega, records_add, show k + (b - k) = b by omega]

/-- **The packer writes the records of all chunks from an offset on**, whatever extents it is told. -/
theorem writeFilepackData_eq (h : Truthful file) {fuel call first : Nat} (hfirst : first ≤ chunks file.size)
    (hfuel : chunks file.size - first < fuel) :
    writeFilepackData codec.encodeAll file fuel call (min (first * chunkBytes) file.size) =
      .ok (records codec file.content file.size first (chunks file.size - first)) := by
  induction fuel generalizing call first with
  | zero => exact absurd hfuel (Nat.not_lt_zero _)
  | succ fuel ih =>
    have hscan := scan_rest codec hfirst
    unfold writeFilepackData
    rcases hfirst.eq_or_lt with rfl | hfirst
    · rw [Nat.min_eq_right (le_chunks _), if_neg (lt_irrefl _), Nat.sub_self]
      rfl
    · have hend := fewer_chunks hfuel hfirst (le_refl _)
      have hstart : first * chunkBytes < file.size := chunk_lt.mp hfirst
      rw [Nat.min_eq_left hstart.le] at hscan ⊢
      rw [if_pos hstart]
      -- nothing but zeros is left: the next round is at the end of the file
      have hskip (hzero : ∀ p, first * chunkBytes ≤ p → p < file.size → file.content p = 0) :
          writeFilepackData codec.encodeAll file fuel (call + 1) file.size =
            .ok (records codec file.content file.size first (chunks file.size - first)) := by
        have hrest := @ih (call + 1) _ (le_refl (chunks file.size)) hend
        rw [Nat.min_eq_right (le_chunks _), Nat.sub_self] at hrest
        rw [hrest, records_zero codec file.content file.size fun p hlo _ hp => hzero p hlo hp]
        rfl
      unfold nextDataRange
      cases hdata : file.seekData call (first * chunkBytes) with
      | noData =>
        rw [ok_bind]
        dsimp only
        rw [if_neg (by simp), if_pos (le_refl _)]
        exact hskip (h.noData call _ hdata)
      | unsupported =>
        rw [ok_bind]
        dsimp only
        rw [if_pos (by simp), hscan]
      | failed cause => exact absurd hdata (h.data call _ cause)
      | found start =>
        obtain ⟨hle, hzero⟩ := h.found call _ start hdata
        dsimp only
        by_cases hbeyond : start ≥ file.size
        · rw [if_pos hbeyond, ok_bind]
          dsimp only
          rw [if_neg (by simp), if_pos (le_refl _)]
          exact hskip fun p hlo hp => hzero p hlo (lt_of_lt_of_le hp hbeyond) hp
        · rw [if_neg hbeyond]
          rw [not_le] at hbeyond
          rcases h.hole call _ start hdata hbeyond with hhole | ⟨stop, hhole, hstop⟩
          · rw [hhole, ok_bind]
            dsimp only
            rw [if_pos (by simp), hscan]
          · rw [hhole]
            dsimp only
            rw [ok_bind]
            dsimp only
            rw [if_neg (by simp), clamp_eq, if_neg (not_le.mpr (lt_min hstop hbeyond))]
            obtain ⟨hfk, hkb, hbK⟩ := range_chunks hbeyond hstop hle
            have hrest := @ih (call + 1) _ hbK (fewer_chunks hfuel (lt_of_le_of_lt hfk hkb) hbK)
            have hhead : records codec file.content file.size first (start / chunkBytes - first) = [] := by
              apply records_zero
              intro p hlo hhi hp
              rw [Nat.add_sub_cancel' hfk] at hhi
              exact hzero p hlo (lt_of_lt_of_le hhi (Nat.div_mul_le_self _ _)) hp
            rw [roundDown_eq hbeyond, roundUp_eq (Nat.min_le_right _ _), scan_range codec hkb.le hbK, ok_bind, hrest,
              ok_bind, records_split codec hfk hkb.le hbK hhead]
            rfl

end Packing

/-! ## The header reads back -/

/-- The members of a header. -/
def headerMembers (header : FilepackHeader) : List (Bytes × Value) :=
  [(ascii "version", .number (renderInt header.version.toInt)), (ascii "role", .string header.role),
    (ascii "logical_size", .number (renderInt header.logicalSize.toInt)),
    (ascii "chunk_size", .number (renderInt header.chunkSize.toInt)), (ascii "codec", .string header.codec)]

theorem headerPayload_eq (header : FilepackHeader) :
    headerPayload header = (Value.object (headerMembers header)).render := by
  rw [Value.render, renderMembers_eq]
  rfl

def headerNames : List String := ["version", "role", "logical_size", "chunk_size", "codec"]

/-- The name of a member selects the field that it was written from, and no other. -/
theorem isField_headerNames : ∀ a ∈ headerNames, ∀ b ∈ headerNames, isField (ascii a) b = decide (a = b) := by
  decide +kernel

theorem decodeHeader_payload {header : FilepackHeader} (hrole : Utf8 header.role) (hcodec : Utf8 header.codec) :
    decodeHeader (headerPayload header) = (.ok header : Except (DecodeError ε) FilepackHeader) := by
  have hfirst : firstValue (headerPayload header) = some (.object (headerMembers header), []) := by
    rw [headerPayload_eq]
    refine firstValue_object (fun m hm => ?_) (by decide : 1 < maxDepth)
    simp only [headerMembers, List.mem_cons, List.not_mem_nil, or_false] at hm
    rcases hm with rfl | rfl | rfl | rfl | rfl
    · exact ⟨utf8_fieldName _ (by decide), isNumber_renderInt _⟩
    · exact ⟨utf8_fieldName _ (by decide), hrole⟩
    · exact ⟨utf8_fieldName _ (by decide), isNumber_renderInt _⟩
    · exact ⟨utf8_fieldName _ (by decide), isNumber_renderInt _⟩
    · exact ⟨utf8_fieldName _ (by decide), hcodec⟩
  rw [decodeHeader, hfirst]
  show (headerMembers header).foldlM (fun h m => headerField h m.1 m.2) _ = _
  have hnames := isField_headerNames
  simp only [headerNames, List.forall_mem_cons] at hnames
  simp [headerMembers, headerField, hnames, asInt64_renderInt, Value.asString]

/-! ## Unpacking -/

section Unpacking

/-- Reading a pack from a text, with a codec and a target that does not fail. -/
def Codec.env (codec : Codec ε) (stream : Bytes) : Env ε where
  source := Reader.ofBytes stream
  done _ := none
  newReader := none
  decodeAll := codec.decodeAll
  writeAt _ := none

/-- A file after some writes. -/
def applyWrites (content : Content) (writes : List Write) : Content :=
  writes.foldl (fun content w => splice content w.offset.toInt.toNat w.data) content

variable (codec : Codec ε) (content : Content) (size : Nat)

/-- The writes of `count` chunks. -/
def chunkWrites (first count : Nat) : List Write :=
  (List.range' first count).filterMap fun k =>
    if allZero (chunkAt content size k) then none
    else some ⟨Int64.ofNat (k * chunkBytes), chunkAt content size k⟩

theorem chunkWrites_succ (first count : Nat) : chunkWrites content size first (count + 1) =
    (if allZero (chunkAt content size first) then []
      else [⟨Int64.ofNat (first * chunkBytes), chunkAt content size first⟩]) ++
        chunkWrites content size (first + 1) count := by
  unfold chunkWrites
  rw [List.range'_succ]
  by_cases hzero : allZero (chunkAt content size first) = true
  · rw [if_pos hzero, List.nil_append]
    exact List.filterMap_cons_none (if_pos hzero)
  · rw [if_neg hzero, List.singleton_append]
    exact List.filterMap_cons_some (if_neg hzero)

theorem readFull_next {α : Type} {env : Env ε} {s : Decoding} {n : Nat} {bytes : Bytes} {f : Bytes → DecodeAct ε α}
    {Q : Except (DecodeError ε) α → Decoding → Prop} (h : env.source.next s.pos n = some bytes)
    (hf : Outcome { s with pos := s.pos + n } (f bytes) Q) : Outcome s (readFull env n >>= f) Q := by
  have hread : env.source.readFull s.pos n = .ok bytes := Reader.readFull_eq_ok.mpr h
  exact Outcome.effect_ok (by rw [hread]) hf

/-- The three integers of a data record. -/
def dataFields (offset raw compressed : Nat) : Bytes := beBytes 8 offset ++ beBytes 4 raw ++ beBytes 8 compressed

/-- A data record as the packer writes it. -/
def dataRecord (offset : Nat) (chunk encoded : Bytes) : Bytes :=
  filepackRecordData :: dataFields offset chunk.length encoded.length ++ encoded

theorem length_dataFields (offset raw compressed : Nat) : (dataFields offset raw compressed).length = 20 := by
  simp [dataFields]

section DataRecord

variable {codec : Codec ε} {size offset : Nat} {chunk encoded : Bytes}

/-- The fields of a record that the packer wrote pass all checks. -/
theorem checkDataRecord_eq {raw compressed : Nat} {next : Int64} {header : Bytes}
    (hsize : size ≤ maxInt64) (hoffset : offset < size) (haligned : offset % 4194304 = 0)
    (hraw : raw = min 4194304 (size - offset)) (hcompressed : 0 < compressed) (hmax : compressed ≤ 4194560)
    (hnext : next.toInt ≤ offset) (h0 : beNat (slice header 0 8) = offset) (h8 : beNat (slice header 8 4) = raw)
    (h12 : beNat (slice header 12 8) = compressed) :
    checkDataRecord (Int64.ofNat size) next header =
      (.ok ⟨Int64.ofNat offset, Int64.ofNat raw, Int64.ofNat compressed⟩ : Except (DecodeError ε) DataRecord) := by
  unfold maxInt64 at hsize
  have hsize' : (Int64.ofNat size).toInt = size := toInt_ofNat (by omega)
  have hoffset' : (Int64.ofNat offset).toInt = offset := toInt_ofNat (by omega)
  have hraw' : (Int64.ofNat raw).toInt = raw := toInt_ofNat (by omega)
  have hcompressed' : (Int64.ofNat compressed).toInt = compressed := toInt_ofNat (by omega)
  have hrest : (Int64.ofNat size - Int64.ofNat offset).toInt = size - offset := by
    rw [toInt_sub_of_le (by omega) (by omega), hsize', hoffset']
  unfold checkDataRecord
  rw [h0, h8, h12]
  dsimp only
  -- one goal per check of the source, the last check first
  rw [reject_false, ok_bind, reject_false, ok_bind, reject_false, ok_bind]
  · rfl
  · simp only [not_or, not_not, Int64.lt_iff_toInt_lt, Int.not_lt]
    refine ⟨by omega, ?_, ?_⟩
    · apply Int64.toInt_inj.mp
      rw [Int64.toInt_mod, hoffset', toInt_chunkSize, Int64.toInt_zero, Int.tmod_eq_emod_of_nonneg (by omega)]
      omega
    · apply Int64.toInt_inj.mp
      show (Int64.ofNat raw).toInt = (if filepackChunkSize ≤ Int64.ofNat size - Int64.ofNat offset then
        filepackChunkSize else Int64.ofNat size - Int64.ofNat offset).toInt
      simp only [Int64.le_iff_toInt_le, toInt_chunkSize, hrest, hraw']
      split_ifs
      · rw [toInt_chunkSize]
        omega
      · rw [hrest]
        omega
  · simp only [not_or, Int64.lt_iff_toInt_lt, Int64.le_iff_toInt_le, gt_iff_lt, Int.not_lt, Int.not_le,
      Int64.toInt_zero, toInt_chunkSize, toInt_maxEncoded, hrest, hsize', hoffset', hraw', hcompressed']
    omega
  · unfold maxInt64
    omega

/-- Each of the three integers is read back from its window of the record. -/
theorem Encodes.checkDataRecord (h : Encodes codec size offset chunk encoded) (hsize : size ≤ maxInt64)
    {next : Int64} (hnext : next.toInt ≤ offset) :
    checkDataRecord (Int64.ofNat size) next (dataFields offset chunk.length encoded.length) =
      (.ok ⟨Int64.ofNat offset, Int64.ofNat chunk.length, Int64.ofNat encoded.length⟩ :
        Except (DecodeError ε) DataRecord) := by
  have hchunk : chunk.length ≤ 4194304 := h.length.trans_le (Nat.min_le_left _ _)
  apply checkDataRecord_eq hsize h.inside h.aligned h.length h.nonempty h.bound hnext
  · have hslice : slice (dataFields offset chunk.length encoded.length) 0 8 = beBytes 8 offset :=
      slice_of_split [] (List.append_assoc _ _ _) rfl (by simp)
    rw [hslice]
    exact beNat_beBytes (lt_trans (h.inside.trans_le hsize) (by decide))
  · have hslice : slice (dataFields offset chunk.length encoded.length) 8 4 = beBytes 4 chunk.length :=
      slice_of_split (beBytes 8 offset) rfl (by simp) (by simp)
    rw [hslice]
    exact beNat_beBytes (lt_of_le_of_lt hchunk (by decide))
  · have hslice : slice (dataFields offset chunk.length encoded.length) 12 8 = beBytes 8 encoded.length :=
      slice_of_split (beBytes 8 offset ++ beBytes 4 chunk.length) (List.append_nil _).symm (by simp) (by simp)
    rw [hslice]
    exact beNat_beBytes (lt_of_le_of_lt h.bound (by decide))

/-- The part of a record after its type: the fields and the encoded chunk are read, and the chunk is written. -/
theorem Encodes.readFilepackDataRecord (h : Encodes codec size offset chunk encoded) (hsize : size ≤ maxInt64)
    {before after stream : Bytes} {t : Decoding}
    (hstream : stream = before ++ dataFields offset chunk.length encoded.length ++ encoded ++ after)
    (hpos : t.pos = before.length) (hnext : t.nextOffset.toInt ≤ offset) :
    Outcome t (readFilepackDataRecord (codec.env stream) (Int64.ofNat size) 4194560 4194304)
      fun r u => r = .ok () ∧ u.writes = t.writes ++ [⟨Int64.ofNat offset, chunk⟩] ∧
        u.pos = before.length + 20 + encoded.length ∧
        u.nextOffset = Int64.ofNat offset + Int64.ofNat chunk.length ∧ u.buffers = t.buffers := by
  have hinside := h.inside
  have hlength := h.length
  have hnonempty := h.nonempty
  have hbound := h.bound
  have hraw : (Int64.ofNat chunk.length).toInt = chunk.length := toInt_ofNat (by omega)
  have hcompressed : (Int64.ofNat encoded.length).toInt = encoded.length := toInt_ofNat (by omega)
  have hfields : (codec.env stream).source.next t.pos 20 = some (dataFields offset chunk.length encoded.length) :=
    Reader.next_of_split before (encoded ++ after) (by rw [hstream, List.append_assoc]) hpos
      (length_dataFields _ _ _).symm
  have hinput : (codec.env stream).source.next (t.pos + 20) encoded.length = some encoded :=
    Reader.next_of_split (before ++ dataFields offset chunk.length encoded.length) after hstream
      (by rw [List.length_append, length_dataFields, hpos]) rfl
  apply readFull_next hfields
  refine Outcome.reads_ok (h.checkDataRecord hsize hnext) ?_
  apply reslice_bind (by rw [hcompressed]; omega) (by rw [hcompressed]; omega)
  rw [hcompressed, Int.toNat_natCast]
  apply readFull_next hinput
  apply reslice_bind (by rw [hraw]; omega) (by rw [hraw]; omega)
  rw [hraw, Int.toNat_natCast, show (codec.env stream).decodeAll encoded chunk.length = .ok chunk from h.decodes]
  apply Outcome.bind_ok (Outcome.attempt ⟨rfl, rfl⟩)
  rintro _ rfl
  have hsame : reject ((chunk.length : Int) ≠ chunk.length)
      (DecodeError.invalidContent (ε := ε) .decodedSize) = .ok () := reject_false (by simp)
  rw [hsame]
  refine ⟨rfl, rfl, ?_, rfl, rfl⟩
  show t.pos + 20 + encoded.length = _
  rw [hpos]

/-- What decoding needs to go on: where it is, and a chunk that is not before the next offset. -/
structure Ready (before : Bytes) (offset : Nat) (s : Decoding) : Prop where
  pos : s.pos = before.length
  next : s.nextOffset.toInt ≤ offset
  buffers : ∀ b ∈ s.buffers, b = (4194560, 4194304)

theorem buffered_parts {s t : Decoding} (ht : t = s.buffered) (h : ∀ b ∈ s.buffers, b = (4194560, 4194304)) :
    t.pos = s.pos ∧ t.writes = s.writes ∧ t.nextOffset = s.nextOffset ∧ t.buffers = some (4194560, 4194304) := by
  rw [ht, Decoding.buffered]
  cases hs : s.buffers with
  | some buffers => exact ⟨rfl, rfl, rfl, hs.trans (congrArg some (h buffers hs))⟩
  | none => exact ⟨rfl, rfl, rfl, rfl⟩

/-- **A data record is read back.** -/
theorem decodeRecord_data (h : Encodes codec size offset chunk encoded) (hsize : size ≤ maxInt64)
    {before after : Bytes} {s : Decoding} (hready : Ready before offset s) :
    Outcome s (decodeRecord (codec.env (before ++ dataRecord offset chunk encoded ++ after)) (Int64.ofNat size))
      fun r t => r = .ok false ∧ t.writes = s.writes ++ [⟨Int64.ofNat offset, chunk⟩] ∧
        Ready (before ++ dataRecord offset chunk encoded) (offset + chunk.length) t := by
  have hsize' : size < 2 ^ 63 := Nat.lt_succ_of_le hsize
  have hinside := h.inside
  have hlength := h.length
  generalize hstream : before ++ dataRecord offset chunk encoded ++ after = stream
  have hsplit : stream = before ++ [filepackRecordData] ++ dataFields offset chunk.length encoded.length
      ++ encoded ++ after := by
    rw [← hstream]
    simp [dataRecord]
  -- the type of the record, then its fields and its octets
  have htype : (codec.env stream).source.next s.pos 1 = some [filepackRecordData] :=
    Reader.next_of_split before _ (by rw [hsplit, List.append_assoc, List.append_assoc]) hready.pos rfl
  unfold decodeRecord
  refine Outcome.effect_ok rfl ?_
  apply readFull_next (s := { s with rounds := s.rounds + 1 }) htype
  rw [if_neg (by decide), if_pos rfl]
  refine Outcome.bind_ok (makeBuffers_outcome ?_) fun t ht => ?_
  · exact hready.buffers
  obtain ⟨hpos, hwrites, hnext, hmade⟩ := buffered_parts ht hready.buffers
  have hpos' : t.pos = (before ++ [filepackRecordData]).length := by
    rw [hpos, List.length_append, ← hready.pos]
    rfl
  have hnext' : t.nextOffset.toInt ≤ offset := hnext ▸ hready.next
  apply Outcome.bind_ok (h.readFilepackDataRecord hsize hsplit hpos' hnext')
  rintro u ⟨hwritten, hend, hoffset, hbuffers⟩
  refine Outcome.pure ⟨rfl, hwritten.trans ?_, ?_, ?_, ?_⟩
  · rw [hwrites]
  · rw [hend]
    simp only [dataRecord, List.length_append, List.length_cons, List.length_nil, length_dataFields]
    omega
  · have hraw : (Int64.ofNat chunk.length).toInt = chunk.length := toInt_ofNat (by omega)
    have hstart : (Int64.ofNat offset).toInt = offset := toInt_ofNat (by omega)
    rw [hoffset, toInt_add_of_le (c := Int64.ofNat size) (by omega) (by omega), hstart, hraw]
    · simp
    · rw [hstart, hraw, toInt_ofNat hsize']
      omega
  · rw [hbuffers, hmade]
    simp

end DataRecord

theorem record_eq {k : Nat} (h : ¬allZero (chunkAt content size k) = true) :
    record codec content size k =
      dataRecord (k * chunkBytes) (chunkAt content size k) (codec.encodeAll (chunkAt content size k)) := by
  unfold record dataRecord dataFields
  rw [if_neg h]
  rfl

/-- The record of a chunk that has one, in the loop. -/
theorem decodeRecord_record (hsize : size ≤ maxInt64) {k : Nat} (hk : k < chunks size)
    (hchunk : ¬allZero (chunkAt content size k) = true) {before after : Bytes} {s : Decoding}
    (h : Ready before (k * chunkBytes) s) :
    Outcome s (decodeRecord (codec.env (before ++ record codec content size k ++ after)) (Int64.ofNat size))
      fun r t => r = .ok false ∧ t.writes = s.writes ++ [⟨Int64.ofNat (k * chunkBytes), chunkAt content size k⟩] ∧
        Ready (before ++ record codec content size k) ((k + 1) * chunkBytes) t := by
  have hle : (chunkAt content size k).length ≤ chunkBytes := by
    rw [length_chunkAt]
    exact Nat.min_le_left _ _
  rw [record_eq codec content size hchunk]
  apply Outcome.post (decodeRecord_data (encodes_chunkAt codec content size hk hchunk) hsize h)
  rintro r t ⟨hr, hwrites, hpos, hnext, hbuffers⟩
  refine ⟨hr, hwrites, hpos, hnext.trans ?_, hbuffers⟩
  rw [Nat.succ_mul]
  exact_mod_cast Nat.add_le_add_left hle _

/-- **The records of all chunks from one on are read back.** -/
theorem decodeRecords_records (hsize : size ≤ maxInt64) {first count fuel : Nat}
    (hcount : first + count = chunks size) (hfuel : count < fuel) {before : Bytes} {s : Decoding}
    (h : Ready before (first * chunkBytes) s) :
    Outcome s (decodeRecords (codec.env (before ++ records codec content size first count ++ [filepackRecordEnd]))
        (Int64.ofNat size) fuel) fun r t =>
      r = .ok true ∧ t.writes = s.writes ++ chunkWrites content size first count := by
  induction count generalizing first fuel before s with
  | zero =>
    obtain ⟨fuel, rfl⟩ : ∃ n, fuel = n + 1 := ⟨fuel - 1, by omega⟩
    have hstream : before ++ records codec content size first 0 ++ [filepackRecordEnd] =
        before ++ [filepackRecordEnd] := by
      rw [show records codec content size first 0 = [] from rfl, List.append_nil]
    rw [hstream]
    have htype : (codec.env (before ++ [filepackRecordEnd])).source.next s.pos 1 = some [filepackRecordEnd] := by
      have hread : (Reader.ofBytes (before ++ [filepackRecordEnd] ++ []) : Reader ε).next before.length 1 = _ :=
        Reader.next_ofBytes before [filepackRecordEnd] []
      rw [List.append_nil, ← h.pos] at hread
      exact hread
    have hend : (codec.env (before ++ [filepackRecordEnd])).source.byte (s.pos + 1) = none := by
      show (before ++ [filepackRecordEnd])[s.pos + 1]? = none
      rw [List.getElem?_eq_none_iff, h.pos]
      simp
    have hround : Outcome s (decodeRecord (codec.env (before ++ [filepackRecordEnd])) (Int64.ofNat size))
        fun r t => r = .ok true ∧ t.writes = s.writes := by
      refine Outcome.effect_ok rfl ?_
      refine readFull_next (?_ : _ = some [filepackRecordEnd]) ?_
      · exact htype
      rw [if_pos rfl]
      apply Outcome.reads_bind
      · intro e he
        unfold Reader.readByte at he
        dsimp only at he
        rw [hend] at he
        cases he
      · exact fun _ _ => ⟨rfl, rfl⟩
    apply Outcome.bind_ok hround
    exact fun t hwrites => Outcome.pure ⟨rfl, hwrites.trans (List.append_nil _).symm⟩
  | succ count ih =>
    obtain ⟨fuel, rfl⟩ : ∃ n, fuel = n + 1 := ⟨fuel - 1, by omega⟩
    have hcount' : first + 1 + count = chunks size := by omega
    rw [records_succ, chunkWrites_succ]
    by_cases hzero : allZero (chunkAt content size first) = true
    · -- a chunk without a record is passed over
      have hrecord : record codec content size first = [] := if_pos hzero
      rw [hrecord, List.nil_append, if_pos hzero, List.nil_append]
      refine ih hcount' (by omega) ⟨h.pos, h.next.trans ?_, h.buffers⟩
      exact_mod_cast Nat.mul_le_mul_right _ (Nat.le_succ first)
    · rw [if_neg hzero, ← List.append_assoc before, List.append_assoc (before ++ _)]
      apply Outcome.bind_ok (decodeRecord_record codec content size hsize (by omega) hzero h)
      rintro t ⟨hwrites, hready⟩
      rw [← List.append_assoc]
      apply Outcome.post (ih hcount' (by omega) hready)
      rintro r u ⟨hr, hu⟩
      refine ⟨hr, ?_⟩
      rw [hu, hwrites, List.append_assoc]

end Unpacking

/-! ## The unpacked file -/

section Content

variable (content : Content) (size : Nat)

theorem getD_chunkAt {k p : Nat} (hlo : k * chunkBytes ≤ p) (hhi : p < k * chunkBytes + (chunkAt content size k).length) :
    (chunkAt content size k).getD (p - k * chunkBytes) 0 = content p := by
  have hlt : p - k * chunkBytes < min chunkBytes (size - k * chunkBytes) := by
    rw [length_chunkAt] at hhi
    generalize k * chunkBytes = offset at *
    omega
  have hsum : k * chunkBytes + (p - k * chunkBytes) = p := Nat.add_sub_cancel' hlo
  rw [List.getD_eq_getElem?_getD, chunkAt, getElem?_window _ _ hlt, hsum]
  rfl

theorem content_of_allZero {k p : Nat} (h : allZero (chunkAt content size k) = true) (hlo : k * chunkBytes ≤ p)
    (hhi : p < k * chunkBytes + (chunkAt content size k).length) : content p = 0 := by
  rw [← getD_chunkAt content size hlo hhi, List.getD_eq_getElem?_getD]
  have hlt : p - k * chunkBytes < (chunkAt content size k).length := by
    generalize k * chunkBytes = offset at *
    omega
  rw [List.getElem?_eq_getElem hlt, Option.getD_some]
  have hmem := List.all_eq_true.mp h _ (List.getElem_mem hlt)
  exact of_decide_eq_true hmem

/-- Up to where the chunks reach, the written file is the content; before them nothing changes. -/
theorem applyWrites_chunkWrites (hsize : size ≤ maxInt64) {first count : Nat} (hcount : first + count = chunks size)
    {base : Content} (hbase : ∀ p, first * chunkBytes ≤ p → base p = 0) :
    ∀ p < size, applyWrites base (chunkWrites content size first count) p =
      if first * chunkBytes ≤ p then content p else base p := by
  induction count generalizing first base with
  | zero =>
    intro p hp
    have hcover := le_chunks size
    rw [← hcount, Nat.add_zero] at hcover
    rw [if_neg (not_le.mpr (lt_of_lt_of_le hp hcover))]
    rfl
  | succ count ih =>
    have hfirst : first * chunkBytes < size := chunk_lt.mp (by omega)
    have hsucc : (first + 1) * chunkBytes = first * chunkBytes + chunkBytes := Nat.succ_mul _ _
    have hlength := length_chunkAt content size first
    have hoffset : (Int64.ofNat (first * chunkBytes)).toInt.toNat = first * chunkBytes := by
      rw [toInt_ofNat (lt_of_lt_of_le hfirst (hsize.trans (by decide)))]
      exact Int.toNat_natCast _
    intro p hp
    rw [chunkWrites_succ]
    by_cases hzero : allZero (chunkAt content size first) = true
    -- a chunk of zeros has no record, and the file is zero there
    · have hlater : ∀ q, (first + 1) * chunkBytes ≤ q → base q = 0 := by
        intro q hq
        rw [hsucc] at hq
        exact hbase q (le_trans (Nat.le_add_right _ _) hq)
      rw [if_pos hzero, List.nil_append, ih (by omega) hlater p hp]
      have hchunk := @content_of_allZero content size first p hzero
      have hold := hbase p
      rw [hsucc, hlength] at *
      generalize first * chunkBytes = offset at *
      split_ifs with hlater hhere hhere
      · rfl
      · omega
      · rw [hold hhere, hchunk hhere (by omega)]
      · rfl
    · rw [if_neg hzero, List.singleton_append]
      show applyWrites (splice base (Int64.ofNat (first * chunkBytes)).toInt.toNat (chunkAt content size first)) _ p = _
      have hread := @getD_chunkAt content size first p
      rw [hoffset, ih (by omega) _ p hp]
      · unfold splice
        rw [hsucc, hlength] at *
        generalize first * chunkBytes = offset at *
        split_ifs with hlater hhere hinside
        · rfl
        · omega
        · exact hread hinside.1 hinside.2
        · omega
        · omega
        · rfl
      · intro q hq
        have hold := hbase q
        rw [hsucc] at hq
        rw [splice_of_le]
        · generalize first * chunkBytes = offset at *
          exact hold (by omega)
        · rw [hlength]
          generalize first * chunkBytes = offset at *
          omega

end Content

/-! ## The size of a pack -/

section Size

variable (codec : Codec ε) (content : Content) (size : Nat)

theorem length_record_le (k : Nat) : (record codec content size k).length ≤
    filepackDataHeaderSize + codec.maxEncodedSize (chunkAt content size k).length := by
  have hencoded := codec.length_encode (chunkAt content size k)
  unfold record filepackDataHeaderSize
  split_ifs
  · exact Nat.zero_le _
  · simp only [List.length_append, List.length_cons, length_beBytes]
    omega

/-- Whole chunks. -/
theorem length_records_le {first count : Nat} (h : first + count ≤ size / chunkBytes) :
    (records codec content size first count).length ≤
      count * (filepackDataHeaderSize + codec.maxEncodedSize chunkBytes) := by
  induction count generalizing first with
  | zero => exact Nat.zero_le _
  | succ count ih =>
    have hwhole : (chunkAt content size first).length = chunkBytes := by
      have hfits : (first + 1) * chunkBytes ≤ size :=
        (Nat.le_div_iff_mul_le chunkBytes_pos).mp (by omega)
      rw [Nat.succ_mul] at hfits
      rw [length_chunkAt]
      generalize first * chunkBytes = offset at *
      omega
    have hrecord := length_record_le codec content size first
    rw [hwhole] at hrecord
    rw [records_succ, List.length_append, Nat.succ_mul]
    have hrest := ih (by omega : first + 1 + count ≤ size / chunkBytes)
    omega

theorem chunks_eq : chunks size = size / chunkBytes + if size % chunkBytes ≠ 0 then 1 else 0 := by
  unfold chunks
  rw [chunkBytes_eq]
  split_ifs <;> omega

/-- The last chunk is what is left. -/
theorem length_last : (chunkAt content size (size / chunkBytes)).length = size % chunkBytes := by
  have hmod := Nat.mod_lt size chunkBytes_pos
  have hsum := Nat.div_add_mod' size chunkBytes
  rw [length_chunkAt]
  generalize size / chunkBytes * chunkBytes = whole at *
  omega

/-- **A pack is within its limit.** -/
theorem length_pack_le {role : Bytes} {limit : Nat}
    (h : packedSizeLimit codec.maxEncodedSize (size : Int) role = .ok limit) :
    (filepackMagic ++ beBytes 4 (headerPayload (packHeader role size)).length ++
        headerPayload (packHeader role size) ++ records codec content size 0 (chunks size) ++
        [filepackRecordEnd]).length ≤ limit := by
  unfold packedSizeLimit at h
  obtain ⟨_, -, h⟩ := bind_eq_ok.mp h
  rw [Int.toNat_natCast] at h
  obtain ⟨_, -, h⟩ := bind_eq_ok.mp h
  obtain ⟨_, -, h⟩ := bind_eq_ok.mp h
  dsimp only at h
  have hwhole := @length_records_le ε codec content size 0 (size / chunkBytes) (by omega)
  simp only [List.length_append, length_beBytes, List.length_singleton]
  rw [chunks_eq, records_add, List.length_append, Nat.zero_add]
  generalize (headerPayload (packHeader role size)).length = payload at *
  generalize (records codec content size 0 (size / chunkBytes)).length = whole at *
  split_ifs at h ⊢ with htail
  · obtain ⟨_, -, h⟩ := bind_eq_ok.mp h
    have hlast := length_record_le codec content size (size / chunkBytes)
    rw [length_last] at hlast
    have hone : (records codec content size (size / chunkBytes) 1).length =
        (record codec content size (size / chunkBytes)).length := by
      rw [records_succ]
      simp [records]
    rw [hone]
    cases h
    omega
  · cases h
    have hnone : (records codec content size (size / chunkBytes) 0).length = 0 := rfl
    rw [hnone]
    omega

end Size

/-! ## Main result -/

theorem length_headerPayload_ne (header : FilepackHeader) : (headerPayload header).length ≠ 0 := by
  unfold headerPayload renderObject renderSeq
  simp

/-- The header is read as its text decodes. -/
theorem readFilepackHeader_eq {codec : Codec ε} {payload after : Bytes} {header : FilepackHeader}
    (hdecode : decodeHeader payload = (.ok header : Except (DecodeError ε) FilepackHeader))
    (hne : payload.length ≠ 0) (hmax : payload.length ≤ maxFilepackHeader) :
    Outcome .start (readFilepackHeader (codec.env (filepackMagic ++ beBytes 4 payload.length ++ payload ++ after)))
      fun r t => r = .ok header ∧ t.writes = [] ∧ Ready (filepackMagic ++ beBytes 4 payload.length ++ payload) 0 t := by
  generalize hstream : filepackMagic ++ beBytes 4 payload.length ++ payload ++ after = stream
  have hmagic : (codec.env stream).source.next 0 filepackMagic.length = some filepackMagic :=
    Reader.next_of_split [] _ (by rw [← hstream, List.append_assoc, List.append_assoc, List.nil_append]) rfl rfl
  have hlength : (codec.env stream).source.next (0 + filepackMagic.length) 4 = some (beBytes 4 payload.length) :=
    Reader.next_of_split filepackMagic _ (by rw [← hstream, List.append_assoc _ payload]) (Nat.zero_add _) (by simp)
  have hpayload : (codec.env stream).source.next (0 + filepackMagic.length + 4) payload.length = some payload :=
    Reader.next_of_split _ after hstream.symm (by simp) rfl
  have hsize : beNat (beBytes 4 payload.length) = payload.length :=
    beNat_beBytes (lt_of_le_of_lt hmax (by decide))
  refine Outcome.effect_ok rfl ?_
  refine readFull_next (?_ : _ = some filepackMagic) ?_
  · exact hmagic
  rw [reject_false (by simp)]
  refine readFull_next (?_ : _ = some (beBytes 4 payload.length)) ?_
  · exact hlength
  dsimp only
  rw [hsize, reject_false (by omega)]
  show Outcome _ (make payload.length >>= fun _ => readFull (codec.env stream) payload.length >>= fun payload =>
    attempt (decodeHeader payload)) _
  refine Outcome.effect_ok rfl ?_
  refine readFull_next (?_ : _ = some payload) ?_
  · exact hpayload
  rw [hdecode]
  refine ⟨rfl, rfl, ?_, ?_, ?_⟩
  · show 0 + filepackMagic.length + 4 + payload.length = _
    simp only [List.length_append, length_beBytes]
    omega
  · exact Int.le_refl 0
  · intro b hb
    cases hb

theorem writeFilepackHeader_eq {header : FilepackHeader} (h : (headerPayload header).length ≤ maxFilepackHeader) :
    writeFilepackHeader header = (.ok (filepackMagic ++ beBytes 4 (headerPayload header).length ++
      headerPayload header) : Except (PackError ε) Bytes) := by
  unfold writeFilepackHeader
  dsimp only
  rw [reject_false (not_lt.mpr h)]
  rfl

/-- The pack of a file. -/
def packed (codec : Codec ε) (content : Content) (size : Nat) (role : Bytes) : Bytes :=
  filepackMagic ++ beBytes 4 (headerPayload (packHeader role size)).length ++ headerPayload (packHeader role size) ++
    records codec content size 0 (chunks size) ++ [filepackRecordEnd]

theorem packTo_eq (codec : Codec ε) {file : File ε} {role : Bytes} (h : Truthful file)
    (hmax : (headerPayload (packHeader role file.size)).length ≤ maxFilepackHeader) :
    packTo codec.encodeAll file role = .ok (packed codec file.content file.size role) := by
  have hfuel : chunks file.size - 0 < file.size + 1 := Nat.lt_succ_of_le (chunks_le file.size)
  have hdata : writeFilepackData codec.encodeAll file (file.size + 1) 0 (min (0 * chunkBytes) file.size) = _ :=
    writeFilepackData_eq codec h (Nat.zero_le _) hfuel
  rw [Nat.zero_mul, Nat.zero_min] at hdata
  unfold packTo
  rw [writeFilepackHeader_eq hmax, ok_bind, hdata, ok_bind]
  rfl

/-- **A pack is accepted**, with one write for each chunk that has a record. -/
theorem decodeFilepack_packed (codec : Codec ε) {content : Content} {size : Nat} {role : Bytes} (hrole : Utf8 role)
    (hsize : size ≤ maxInt64) (hmax : (headerPayload (packHeader role size)).length ≤ maxFilepackHeader) {fuel : Nat}
    (hfuel : chunks size < fuel) :
    Outcome .start (decodeFilepack (codec.env (packed codec content size role)) role (Int64.ofNat size) fuel)
      fun r t => r = .ok true ∧ t.writes = chunkWrites content size 0 (chunks size) := by
  have hnonneg : ¬Int64.ofNat size < 0 := by
    rw [Int64.lt_iff_toInt_lt, toInt_ofNat (lt_of_le_of_lt hsize (by decide)), Int64.toInt_zero]
    omega
  have hheader := @readFilepackHeader_eq ε codec _ (records codec content size 0 (chunks size) ++ [filepackRecordEnd]) _
    (decodeHeader_payload hrole (utf8_fieldName "zstd" (by decide))) (length_headerPayload_ne _) hmax
  rw [← List.append_assoc] at hheader
  apply Outcome.bind_ok hheader
  rintro t ⟨hwrites, hready⟩
  have hvalid : validateFilepackHeader (packHeader role size) role = (.ok () : Except (DecodeError ε) Unit) := by
    unfold validateFilepackHeader packHeader
    dsimp only
    rw [reject_false (by simp), reject_false (by simp), reject_false hnonneg, reject_false (by simp),
      reject_false (by simp)]
    rfl
  have hagrees : ¬(packHeader role size).logicalSize ≠ Int64.ofNat size := not_not.mpr rfl
  rw [hvalid, reject_false hnonneg, reject_false hagrees]
  have hdecoded := decodeRecords_records codec content size hsize (Nat.zero_add (chunks size)) hfuel
    (s := { t with stats := ⟨Int64.ofNat size, 0, 0⟩ })
    ⟨hready.pos, by rw [Nat.zero_mul]; exact hready.next, hready.buffers⟩
  -- the three checks pass
  refine Outcome.attempt_bind nofun fun _ _ => Outcome.attempt_bind nofun fun _ _ =>
    Outcome.attempt_bind nofun fun _ _ => ?_
  refine Outcome.effect_ok rfl ?_
  apply Outcome.post hdecoded
  rintro r u ⟨hr, hu⟩
  refine ⟨hr, hu.trans ?_⟩
  show t.writes ++ _ = _
  rw [hwrites, List.nil_append]

/-- **A pack is its file.** What the filesystem says about extents does not change the pack of a file. Unpacking
it onto zeros gives the file back, and it is within the limit. -/
theorem filepack_is_faithful (codec : Codec ε) (content : Content) (size : Nat) (role : Bytes) (hrole : Utf8 role)
    (hsize : size ≤ maxInt64) (hmax : (headerPayload (packHeader role size)).length ≤ maxFilepackHeader) :
    ∃ stream,
      (∀ file : File ε, file.content = content → file.size = size → Truthful file →
        packTo codec.encodeAll file role = .ok stream) ∧
      (∀ fuel > chunks size,
        Outcome .start (decodeFilepack (codec.env stream) role (Int64.ofNat size) fuel) fun r t =>
          r = .ok true ∧ ∀ p < size, applyWrites (fun _ => 0) t.writes p = content p) ∧
      ∀ limit, packedSizeLimit codec.maxEncodedSize size role = .ok limit → stream.length ≤ limit := by
  refine ⟨packed codec content size role, ?_, ?_, ?_⟩
  · rintro file rfl rfl htruthful
    exact packTo_eq codec htruthful hmax
  · intro fuel hfuel
    apply Outcome.post (decodeFilepack_packed codec hrole hsize hmax hfuel)
    rintro r t ⟨hr, hwrites⟩
    refine ⟨hr, fun p hp => ?_⟩
    rw [hwrites, applyWrites_chunkWrites content size hsize (Nat.zero_add _) (fun _ _ => rfl) p hp,
      if_pos (by rw [Nat.zero_mul]; exact Nat.zero_le p)]
  · intro limit hlimit
    exact length_pack_le codec content size hlimit

/-- The codec that stores chunks as they are. -/
def Codec.stored : Codec Unit where
  encodeAll := id
  decodeAll data capacity := if data.length ≤ capacity then .ok data else .error ()
  maxEncodedSize := id
  decode_encode _ _ h := if_pos h
  encode_ne _ h := h
  length_encode _ := le_refl _
  bound _ h := h.trans (Nat.le_add_right _ _)

/-- Three chunks with two ranges of data: one goes from the first chunk into the second, where the other lies. -/
def sparseFile : File Unit where
  content p := if 4000000 ≤ p ∧ p < 5000000 then 7 else if 6000000 ≤ p ∧ p < 6000100 then 9 else 0
  size := 10000000
  seekData _ offset :=
    if offset < 4000000 then .found 4000000
    else if offset < 5000000 then .found offset
    else if offset < 6000000 then .found 6000000
    else if offset < 6000100 then .found offset
    else .noData
  seekHole _ offset := .found (if offset < 5000000 then 5000000 else 6000100)

/-- The same file where the filesystem cannot tell. -/
def denseFile : File Unit := { sparseFile with seekData := fun _ _ => .unsupported }

theorem truthful_sparseFile : Truthful sparseFile where
  found call offset start h := by
    unfold sparseFile at h ⊢
    dsimp only at h ⊢
    split_ifs at h <;> cases h <;> refine ⟨by omega, fun p hlo hhi _ => ?_⟩ <;>
      rw [if_neg (by omega), if_neg (by omega)]
  noData call offset h p hlo hp := by
    unfold sparseFile at h ⊢
    dsimp only at h ⊢
    split_ifs at h
    rw [if_neg (by omega), if_neg (by omega)]
  data call offset cause := by
    unfold sparseFile
    dsimp only
    split_ifs <;> simp
  hole call offset start h hstart := by
    unfold sparseFile at h ⊢
    dsimp only at h ⊢
    refine Or.inr ⟨_, rfl, ?_⟩
    split_ifs at h ⊢ <;> cases h <;> omega

theorem truthful_denseFile : Truthful denseFile where
  found _ _ _ h := by cases h
  noData _ _ h := by cases h
  data _ _ _ h := by cases h
  hole _ _ _ h := by cases h

theorem filepack_is_faithful_demo :
    ∃ stream, packTo id sparseFile memoryRole = .ok stream ∧ packTo id denseFile memoryRole = .ok stream ∧
      (∀ fuel > chunks 10000000,
        Outcome .start (decodeFilepack (Codec.stored.env stream) memoryRole 10000000 fuel) fun r t =>
          r = .ok true ∧ ∀ p < 10000000, applyWrites (fun _ => 0) t.writes p = sparseFile.content p) ∧
      ∀ limit, packedSizeLimit id 10000000 memoryRole = .ok limit → stream.length ≤ limit := by
  obtain ⟨stream, hpack, hunpack, hlimit⟩ := filepack_is_faithful Codec.stored sparseFile.content 10000000 memoryRole
    (utf8_fieldName "memory" (by decide)) (by decide) (by decide +kernel)
  exact ⟨stream, hpack sparseFile rfl rfl truthful_sparseFile, hpack denseFile rfl rfl truthful_denseFile, hunpack,
    hlimit⟩

/-- A role that is not UTF-8 is packed, and its pack is refused: JSON holds U+FFFD in place of the octet. -/
theorem filepack_role_not_utf8 :
    Truthful sparseFile ∧ ∃ stream, packTo id sparseFile [0xFF] = .ok stream ∧
      ∀ fuel, Outcome .start (decodeFilepack (Codec.stored.env stream) [0xFF] 10000000 fuel) fun r _ =>
        r = .error (.invalidContent (.role [0xEF, 0xBF, 0xBD] [0xFF])) := by
  have hpack : packTo id sparseFile [0xFF] = .ok (packed Codec.stored sparseFile.content 10000000 [0xFF]) :=
    packTo_eq Codec.stored truthful_sparseFile (by decide +kernel)
  have hwritten : headerPayload (packHeader [0xFF] 10000000) =
      headerPayload (packHeader [0xEF, 0xBF, 0xBD] 10000000) := by decide +kernel
  have hread : decodeHeader (headerPayload (packHeader [0xFF] 10000000)) =
      (.ok (packHeader [0xEF, 0xBF, 0xBD] 10000000) : Except (DecodeError Unit) FilepackHeader) := by
    rw [hwritten]
    exact decodeHeader_payload (.rune (k := 3) (by decide) .nil) (utf8_fieldName "zstd" (by decide))
  refine ⟨truthful_sparseFile, _, hpack, fun fuel => ?_⟩
  have hheader := @readFilepackHeader_eq Unit Codec.stored _
    (records Codec.stored sparseFile.content 10000000 0 (chunks 10000000) ++ [filepackRecordEnd]) _ hread
    (length_headerPayload_ne _) (by decide +kernel)
  rw [← List.append_assoc] at hheader
  apply Outcome.bind_ok hheader
  intro t _
  apply Outcome.attempt_bind
  · intro e he
    cases he
    rfl
  · intro _ hvalid
    cases hvalid

end Helmr.Filepack
