import Helmr.Checkpoint.EncryptionSpec
import Helmr.Wire.Space
import Helmr.Ids.Text

/-!
# Checkpoint — objects in the content store

`encryptCheckpointObject` stages the encrypted file of one role and describes it by digest and size;
`downloadCheckpointObject` restores the plaintext from a store that may answer anything. Bodies are read through
`verifyingReadCloser`, which turns an end of the wrong content into a mismatch, and only a mismatch proves an
object unusable: other failures of the store keep the checkpoint for repair. Temporary files take every write.

* `streamErrors_spec` says what reading and closing a body report, however much of it was read;
* `downloadCheckpointObject_cases` is the one place where the download is taken apart;
* `download_is_exact`, `download_condemns_on_evidence` and `staged_object_is_restored` are about the whole of it.
-/

namespace Helmr.Checkpoint

open Wire Fallible Ids

structure Sha256 where
  digest : Bytes → Bytes
  valid : ∀ b, validDigest (digest b) = true

structure Descriptor where
  digest : Bytes
  sizeBytes : Int
  mediaType : Bytes
  deriving DecidableEq

/-- `cas.ValidateDescriptor`. -/
def Descriptor.Valid (d : Descriptor) : Prop :=
  validDigest d.digest = true ∧ 1 ≤ d.sizeBytes ∧ d.mediaType ≠ [] ∧ trimSpace d.mediaType = d.mediaType

instance (d : Descriptor) : Decidable d.Valid := inferInstanceAs (Decidable (_ ∧ _))

inductive StoreError where
  | digestMismatch
  | other
  deriving DecidableEq

/-- What stands behind a digest: the octets still to come, what comes behind them, and whether closing fails. -/
structure Body where
  octets : Bytes
  ending : Ending
  closeFails : Bool

structure Store where
  stat : Bytes → Except StoreError Descriptor
  get : Bytes → Except StoreError Body

inductive ObjectError where
  /-- checkpoint encryption requires a size bound -/
  | bound
  /-- checkpoint plaintext exceeds its staging bound -/
  | plaintextBound
  | encrypt (e : CheckpointError)
  /-- The descriptor is invalid. -/
  | descriptor
  /-- The bound has no encrypted size. -/
  | size (e : CheckpointError)
  /-- checkpoint ciphertext exceeds its staging bound -/
  | ciphertextBound
  /-- CAS object does not match its descriptor -/
  | different
  /-- cas object digest mismatch -/
  | mismatch
  | store
  /-- checkpoint download size differs from manifest -/
  | downloadSize
  /-- read checkpoint role -/
  | read (e : CheckpointError)
  deriving DecidableEq

/-- `errors.Is(err, errInvalidCheckpoint)` of a download. The only failing write is one over the bound. -/
def ObjectError.isInvalid : ObjectError → Bool
  | .descriptor | .ciphertextBound | .different | .mismatch | .downloadSize => true
  | .read (.invalid _) | .read .write => true
  | _ => false

def checkpointObjectReadError (errors : List StoreError) : ObjectError :=
  if .digestMismatch ∈ errors then .mismatch else .store

def purposeOf (checkpoint role : Bytes) : Bytes := checkpoint ++ ascii "/" ++ role

variable (cipher : Cipher) (opening : Opening) (c : CheckpointEncryptor) (sha : Sha256)

/-- The reader is limited to one octet more than the bound, in an `int64`: a limit that is not positive ends it at
once, and only a limit that was used up is zero in the end. -/
def encryptCheckpointObject (env : Env) (salt checkpoint role media plaintext : Bytes) (limit : Int) :
    Except ObjectError (Descriptor × Bytes) :=
  if limit ≤ 0 then .error .bound
  else
    let most := (limit + 1).bmod (2 ^ 64)
    let ending := if most.toNat ≤ plaintext.length then .eof else env.ending
    let sealed := encrypt cipher c { env with ending := ending } salt (plaintext.take most.toNat)
      (purposeOf checkpoint role)
    match sealed.result with
    | .error e => .error (.encrypt e)
    | .ok () =>
      if 0 ≤ most ∧ most.toNat ≤ plaintext.length then .error .plaintextBound
      else .ok (⟨sha.digest sealed.output, sealed.output.length, media⟩, sealed.output)

/-- The checks before the body is read. -/
def getObject (store : Store) (object : Descriptor) (limit : Int) : Except ObjectError Body := do
  reject (¬object.Valid) .descriptor
  let bound ← (encryptedCheckpointSize limit).mapError .size
  reject (object.sizeBytes > bound) .ciphertextBound
  let observed ← (store.stat object.digest).mapError fun e => checkpointObjectReadError [e]
  reject (observed ≠ object) .different
  (store.get object.digest).mapError fun e => checkpointObjectReadError [e]

/-- `verifyingReadCloser`, with the octets its hash has taken. Errors that are joined stand in one list. -/
structure VerifyingReadCloser where
  body : Body
  hash : Bytes
  expected : Bytes
  eof : Bool
  closed : Bool
  err : List StoreError

def newVerifyingReadCloser (body : Body) (expected : Bytes) : VerifyingReadCloser :=
  ⟨body, [], expected, false, false, []⟩

namespace VerifyingReadCloser

variable (r : VerifyingReadCloser)

/-- The next `n` octets of the body go into the hash. -/
def advance (n : Nat) : VerifyingReadCloser :=
  { r with body := { r.body with octets := r.body.octets.drop n }, hash := r.hash ++ r.body.octets.take n }

def verify : VerifyingReadCloser :=
  if r.err ≠ [] ∨ r.eof = false then r
  else if sha.digest r.hash ≠ r.expected then { r with err := [.digestMismatch] }
  else r

/-- `Read` of `n` octets: what it delivers, and how it ends where fewer are left. -/
def read (n : Nat) : Bytes × Option Ending × VerifyingReadCloser :=
  let got := r.body.octets.take n
  let next := r.advance n
  if got.length = n then (got, none, next)
  else if r.body.ending = .eof then
    let verified := { next with eof := true }.verify sha
    -- a mismatch is delivered in place of the end
    (got, some (if verified.err = [] then .eof else .failure), verified)
  else (got, some r.body.ending, { next with err := [.other] })

/-- `Close`, which first takes what was not read. -/
def close : VerifyingReadCloser :=
  if r.closed then r
  else
    let drains := decide (r.eof = false ∧ r.err = [])
    let drained := if drains then { r.advance r.body.octets.length with eof := decide (r.body.ending = .eof) } else r
    let drainErr := if drains ∧ r.body.ending ≠ .eof then [.other] else []
    let closeErr := if r.body.closeFails then [.other] else []
    let verified := drained.verify sha
    { verified with closed := true, err := drainErr ++ closeErr ++ verified.err }

end VerifyingReadCloser

/-- What a reader that is read to `n` octets and closed reports on the way. -/
def streamErrors (body : Body) (expected : Bytes) (n : Nat) : List StoreError :=
  let r := ((newVerifyingReadCloser body expected).read sha n).2.2
  r.err ++ (r.close sha).err

/-- `checkpointBoundedWriter`. -/
def boundedWriter (limit : Nat) (written offered : Nat) : Option Nat :=
  if offered > limit - written then some 0 else none

/-- Nothing goes wrong but a write over the bound. -/
def Env.bounded (limit : Nat) : Env := ⟨fun _ => false, boundedWriter limit, .eof⟩

/-- The outcome, and the content of the temporary file. -/
structure Downloaded where
  result : Except ObjectError Unit
  plaintext : Bytes
  deriving DecidableEq

/-- The context is done at some of the chunks, and at the end. What decryption leaves of the input is drained before
the body is closed, so that the two together ask for one octet more than the size, as the limit of the reader lets
them; behind that it answers EOF. -/
def downloadCheckpointObject (store : Store) (cancelled : Nat → Bool) (done : Bool) (checkpoint role : Bytes)
    (object : Descriptor) (limit : Int) : Downloaded :=
  match getObject store object limit with
  | .error e => ⟨.error e, []⟩
  | .ok body =>
    let n := object.sizeBytes.toNat
    let input := (newVerifyingReadCloser body object.digest).read sha (n + 1)
    let decrypted := decrypt cipher opening c ⟨cancelled, boundedWriter limit.toNat, input.2.1.getD .eof⟩ input.1
      (purposeOf checkpoint role)
    let errors := streamErrors sha body object.digest (n + 1) ++ if done then [.other] else []
    if errors ≠ [] then ⟨.error (checkpointObjectReadError errors), decrypted.written⟩
    else if input.1.length ≠ n then ⟨.error .downloadSize, decrypted.written⟩
    else ⟨decrypted.result.mapError .read, decrypted.written⟩

/-! ## One object -/

def vmSha : Sha256 := ⟨fun _ => ascii "sha256:" ++ List.replicate 64 48, fun _ => by decide⟩

def vmAttempt : Attempt := ⟨.calm, List.replicate 32 3, [1, 2, 3], purposeOf (ascii "k") (ascii "vm"), rfl⟩

def vmFile : Bytes := (vmAttempt.run demoCipher demoEncryptor).output

def vmObject : Descriptor := ⟨vmSha.digest vmFile, vmFile.length, ascii "m"⟩

def vmStore : Store := ⟨fun _ => .ok vmObject, fun _ => .ok ⟨vmFile, .eof, false⟩⟩

def vmDownload (opening : Opening) : Downloaded := downloadCheckpointObject demoCipher opening demoEncryptor vmSha
  vmStore (fun _ => false) false (ascii "k") (ascii "vm") vmObject 8

variable {cipher opening c sha} {key header purpose input written : Bytes} {allocated : List Nat} {fuel chunk limit : Nat}

/-! ## The bound on what is written -/

theorem emit_bounded {env : Env} (henv : env.writeFails = boundedWriter limit) (b : Bytes)
    (hwritten : written.length ≤ limit) : (emit env b written).2.length ≤ limit := by
  unfold emit
  rw [henv, boundedWriter]
  by_cases hover : b.length > limit - written.length
  · simpa [hover] using hwritten
  · simp only [if_neg hover, List.length_append]
    omega

/-- What every write keeps holds of all that is written. -/
theorem decryptRecords_keeps {env : Env} {P : Bytes → Prop} (hemit : ∀ b w, P w → P (emit env b w).2) (h : P written) :
    P (decryptRecords opening env key header purpose fuel chunk input written allocated).written := by
  induction fuel generalizing chunk input written allocated with
  | zero => exact h
  | succ fuel ih =>
    unfold decryptRecords
    split
    · exact h
    split
    · exact h
    split
    · exact h
    dsimp only
    split
    · exact h
    split
    · exact h
    next opened _ =>
    split
    · exact h
    split
    · exact h
    have hnext := hemit opened written h
    split
    · next heq => exact (congrArg (fun p => P p.2) heq).mp hnext
    · next heq => exact ih ((congrArg (fun p => P p.2) heq).mp hnext)

theorem decrypt_bounded {env : Env} (henv : env.writeFails = boundedWriter limit) :
    (decrypt cipher opening c env input purpose).written.length ≤ limit := by
  rcases decrypt_cases cipher opening c env input purpose with ⟨e, -, h⟩ | ⟨-, header, rest, -, -, h⟩
  · rw [h]
    exact Nat.zero_le _
  · rw [h]
    exact decryptRecords_keeps (P := fun w => w.length ≤ limit) (fun b _ => emit_bounded henv b) (Nat.zero_le _)

/-! ## What can be written -/

variable {attempts : List Attempt} {store : Store} {cancelled : Nat → Bool} {done : Bool} {checkpoint role : Bytes}
variable {object : Descriptor} {limit : Int}

theorem get_of_getObject {body : Body} (h : getObject store object limit = .ok body) :
    store.get object.digest = .ok body := by
  unfold getObject at h
  iterate 5 obtain ⟨_, -, h⟩ := bind_eq_ok.mp h
  exact mapError_eq_ok.mp h

theorem isInvalid_readError {errors : List StoreError} :
    (checkpointObjectReadError errors).isInvalid = true ↔ .digestMismatch ∈ errors := by
  unfold checkpointObjectReadError
  split <;> simp [ObjectError.isInvalid, *]

/-! ## What a body reports -/

section Streams

variable {body : Body} {expected : Bytes} {n : Nat}

/-- `Read` stops within the body, or meets its end. -/
theorem read_new (sha : Sha256) (body : Body) (expected : Bytes) (n : Nat) :
    let r := newVerifyingReadCloser body expected
    (n ≤ body.octets.length ∧ r.read sha n = (body.octets.take n, none, r.advance n))
    ∨ body.octets.length < n ∧ r.read sha n =
      if body.ending = .eof then
        let verified := { r.advance n with eof := true }.verify sha
        (body.octets.take n, some (if verified.err = [] then .eof else .failure), verified)
      else (body.octets.take n, some body.ending, { r.advance n with err := [.other] }) := by
  rcases Nat.lt_or_ge body.octets.length n with h | h
  · refine .inr ⟨h, if_neg ?_⟩
    rw [List.length_take]
    show ¬min n body.octets.length = n
    omega
  · exact .inl ⟨h, if_pos (List.length_take_of_le h)⟩

/-- However much of it was asked for: nothing is reported exactly of a body that ended with the expected content
and was closed, and a mismatch exactly of one that ended with another. -/
theorem streamErrors_spec :
    (streamErrors sha body expected n = [] ↔
      body.ending = .eof ∧ sha.digest body.octets = expected ∧ body.closeFails = false)
    ∧ (.digestMismatch ∈ streamErrors sha body expected n ↔
      body.ending = .eof ∧ sha.digest body.octets ≠ expected) := by
  unfold streamErrors
  rcases read_new sha body expected n with ⟨h, hread⟩ | ⟨h, hread⟩
  · -- the rest is drained and verified when the reader is closed
    have hall : body.octets.take n ++ (body.octets.drop n).take (body.octets.drop n).length = body.octets := by
      rw [List.take_length, List.take_append_drop]
    rw [hread]
    obtain ⟨octets, ending, closeFails⟩ := body
    simp only [VerifyingReadCloser.close, VerifyingReadCloser.verify, VerifyingReadCloser.advance,
      newVerifyingReadCloser, List.nil_append, hall]
    by_cases hended : ending = .eof <;> by_cases hsame : sha.digest octets = expected <;> cases closeFails <;>
      simp [hended, hsame]
  · -- what was found at the end is reported again when the reader is closed
    have htake : body.octets.take n = body.octets := List.take_of_length_le h.le
    rw [hread]
    by_cases hended : body.ending = .eof <;> by_cases hsame : sha.digest body.octets = expected <;>
      simp [VerifyingReadCloser.close, VerifyingReadCloser.verify, VerifyingReadCloser.advance,
        newVerifyingReadCloser, htake, hended, hsame]

theorem fst_read : ((newVerifyingReadCloser body expected).read sha n).1 = body.octets.take n := by
  rcases read_new sha body expected n with ⟨h, hread⟩ | ⟨h, hread⟩ <;> rw [hread]
  split <;> rfl

/-- What decryption meets behind the octets of a body that reports nothing. -/
theorem ending_read (h : streamErrors sha body expected n = []) :
    ((newVerifyingReadCloser body expected).read sha n).2.1.getD .eof = .eof := by
  have hended := (streamErrors_spec.1.mp h).1
  unfold streamErrors at h
  rcases read_new sha body expected n with ⟨-, hread⟩ | ⟨-, hread⟩
  · rw [hread]
    rfl
  · rw [if_pos hended] at hread
    rw [hread] at h ⊢
    exact if_pos (List.append_eq_nil_iff.mp h).1

end Streams

/-- The transfer came to the end of the body, and nothing around it failed. -/
def Body.Undisturbed (body : Body) (done : Bool) : Prop :=
  body.ending = .eof ∧ body.closeFails = false ∧ done = false

/-- What a download comes to. Behind the checks of the descriptor an error that condemns stands for a mismatch or,
after an undisturbed transfer, for the wrong size; else the result is that of decryption. -/
theorem downloadCheckpointObject_cases {d : Downloaded}
    (hd : downloadCheckpointObject cipher opening c sha store cancelled done checkpoint role object limit = d) :
    (∃ e, getObject store object limit = .error e ∧ d = ⟨.error e, []⟩)
    ∨ ∃ body ending, getObject store object limit = .ok body ∧
      let r := decrypt cipher opening c ⟨cancelled, boundedWriter limit.toNat, ending⟩
        (body.octets.take (object.sizeBytes.toNat + 1)) (purposeOf checkpoint role)
      d.plaintext = r.written
      ∧ ((∃ e, d.result = .error e ∧ (e.isInvalid = true →
            body.ending = .eof ∧ sha.digest body.octets ≠ object.digest
            ∨ body.Undisturbed done ∧ body.octets.length ≠ object.sizeBytes.toNat))
        ∨ body.Undisturbed done ∧ ending = .eof ∧ sha.digest body.octets = object.digest
          ∧ body.octets.length = object.sizeBytes.toNat ∧ d.result = r.result.mapError .read) := by
  unfold downloadCheckpointObject at hd
  cases hget : getObject store object limit with
  | error e =>
    rw [hget] at hd
    exact .inl ⟨e, rfl, hd.symm⟩
  | ok body =>
    rw [hget] at hd
    simp only [fst_read] at hd
    subst hd
    refine .inr ⟨body, ((newVerifyingReadCloser body object.digest).read sha (object.sizeBytes.toNat + 1)).2.1.getD .eof,
      rfl, ?_⟩
    obtain ⟨hclean, hmismatch⟩ :=
      @streamErrors_spec sha body object.digest (object.sizeBytes.toNat + 1)
    by_cases herrors : streamErrors sha body object.digest (object.sizeBytes.toNat + 1)
        ++ (if done then [.other] else []) = []
    · obtain ⟨hstream, hdone⟩ := List.append_eq_nil_iff.mp herrors
      obtain ⟨hended, hsame, hclosed⟩ := hclean.mp hstream
      have hquiet : body.Undisturbed done := ⟨hended, hclosed, by simpa using hdone⟩
      rw [if_neg (not_not.mpr herrors)]
      split
      · next hlength =>
        refine ⟨rfl, .inl ⟨_, rfl, fun _ => .inr ⟨hquiet, fun hsize => hlength ?_⟩⟩⟩
        exact (List.length_take ..).trans (by omega)
      · next hlength =>
        refine ⟨rfl, .inr ⟨hquiet, ending_read hstream, hsame, ?_, rfl⟩⟩
        have htaken := (List.length_take ..).symm.trans (not_not.mp hlength)
        omega
    · rw [if_pos herrors]
      refine ⟨rfl, .inl ⟨_, rfl, fun hinvalid => .inl (hmismatch.mp ?_)⟩⟩
      -- the end of the context is not a mismatch
      rcases List.mem_append.mp (isInvalid_readError.mp hinvalid) with hmem | hmem
      · exact hmem
      · split at hmem <;> simp at hmem

/-- **A checkpoint object is restored exactly or not at all.** Whatever the store answers, an accepted download has
the digest and the size of the descriptor and is the whole plaintext of one encryption for this checkpoint and role;
a refused one leaves a part of such a plaintext, and none writes more than the bound. -/
theorem download_is_exact (hsalts : (attempts.map Attempt.salt).Nodup) (hideal : Ideal cipher c opening attempts) :
    let d := downloadCheckpointObject cipher opening c sha store cancelled done checkpoint role object limit
    (d.result = .ok () → ∃ body, store.get object.digest = .ok body ∧ sha.digest body.octets = object.digest
      ∧ body.octets.length = object.sizeBytes.toNat
      ∧ ∃ a ∈ attempts, a.purpose = purposeOf checkpoint role ∧ d.plaintext = a.plaintext
        ∧ body.octets = (a.unhindered cipher c).output)
    ∧ d.plaintext.length ≤ limit.toNat
    ∧ (d.plaintext = [] ∨ ∃ a ∈ attempts, a.purpose = purposeOf checkpoint role ∧ d.plaintext <+: a.plaintext) := by
  intro d
  rcases downloadCheckpointObject_cases (show _ = d from rfl) with ⟨e, -, h⟩ | ⟨body, ending, hbody, hwritten, hresult⟩
  · rw [h]
    exact ⟨fun hok => (by cases hok), Nat.zero_le _, .inl rfl⟩
  obtain ⟨haccepts, hpart⟩ := decrypt_authentic hsalts hideal ⟨cancelled, boundedWriter limit.toNat, ending⟩
    (body.octets.take (object.sizeBytes.toNat + 1)) (purposeOf checkpoint role)
  rw [hwritten]
  refine ⟨fun hok => ?_, decrypt_bounded rfl, ?_⟩
  · rcases hresult with ⟨e, he, -⟩ | ⟨-, -, hdigest, hlength, hread⟩
    · rw [he] at hok
      cases hok
    · rw [List.take_of_length_le (by omega)] at haccepts hread ⊢
      obtain ⟨a, ha, hpurpose, hplaintext, -, hoctets, -⟩ := haccepts (mapError_eq_ok.mp (hread.symm.trans hok))
      exact ⟨body, get_of_getObject hbody, hdigest, hlength, a, ha, hpurpose, hplaintext, hoctets⟩
  · by_cases hok : (decrypt cipher opening c ⟨cancelled, boundedWriter limit.toNat, ending⟩
      (body.octets.take (object.sizeBytes.toNat + 1)) (purposeOf checkpoint role)).result = .ok ()
    · obtain ⟨a, ha, hpurpose, hplaintext, -⟩ := haccepts hok
      exact .inr ⟨a, ha, hpurpose, hplaintext ▸ List.prefix_rfl⟩
    · exact hpart hok

theorem download_is_exact_vm :
    (vmDownload (recorded demoCipher demoEncryptor [vmAttempt])).plaintext = vmAttempt.plaintext := by
  have h := @download_is_exact demoCipher _ demoEncryptor vmSha [vmAttempt] vmStore (fun _ => false) false (ascii "k")
    (ascii "vm") vmObject 8 (List.nodup_singleton _) recorded_ideal
  obtain ⟨body, -, -, -, a, ha, -, hplaintext, -⟩ := h.1 (by decide +kernel)
  exact hplaintext.trans (congrArg Attempt.plaintext (List.mem_singleton.mp ha))

/-- What proves an object unusable: its descriptor, what the store says of it, a body that ended with other content
than its digest names, or, after an undisturbed transfer, a size or a content that is not that of the object. -/
inductive Evidence (cipher : Cipher) (opening : Opening) (c : CheckpointEncryptor) (sha : Sha256) (store : Store)
    (cancelled : Nat → Bool) (done : Bool) (checkpoint role : Bytes) (object : Descriptor) (limit : Int) : Prop
  | malformed (h : ¬object.Valid)
  | oversized {bound : Int} (hbound : encryptedCheckpointSize limit = .ok bound) (h : object.sizeBytes > bound)
  | different {observed : Descriptor} (hstat : store.stat object.digest = .ok observed) (h : observed ≠ object)
  | statMismatch (h : store.stat object.digest = .error .digestMismatch)
  | getMismatch (h : store.get object.digest = .error .digestMismatch)
  | corrupt {body : Body} (hget : store.get object.digest = .ok body) (hended : body.ending = .eof)
    (h : sha.digest body.octets ≠ object.digest)
  | missized {body : Body} (hget : store.get object.digest = .ok body) (hquiet : body.Undisturbed done)
    (h : body.octets.length ≠ object.sizeBytes.toNat)
  | rejected {body : Body} {e : CheckpointError} (hget : store.get object.digest = .ok body)
    (hquiet : body.Undisturbed done) (hinvalid : (ObjectError.read e).isInvalid = true)
    (h : (decrypt cipher opening c ⟨cancelled, boundedWriter limit.toNat, .eof⟩ body.octets
      (purposeOf checkpoint role)).result = .error e)

theorem getObject_condemns {e : ObjectError} (hinvalid : e.isInvalid = true)
    (h : getObject store object limit = .error e) :
    Evidence cipher opening c sha store cancelled done checkpoint role object limit := by
  have hmismatch {e : StoreError} (he : (checkpointObjectReadError [e]).isInvalid = true) : e = .digestMismatch :=
    (List.mem_singleton.mp (isInvalid_readError.mp he)).symm
  unfold getObject at h
  rcases bind_eq_error.mp h with h | ⟨_, -, h⟩
  · exact .malformed (reject_eq_error.mp h).1
  rcases bind_eq_error.mp h with h | ⟨bound, hbound, h⟩
  · obtain ⟨_, -, rfl⟩ := mapError_eq_error.mp h
    cases hinvalid
  rcases bind_eq_error.mp h with h | ⟨_, -, h⟩
  · exact .oversized (mapError_eq_ok.mp hbound) (reject_eq_error.mp h).1
  rcases bind_eq_error.mp h with h | ⟨observed, hstat, h⟩
  · obtain ⟨_, hstat, rfl⟩ := mapError_eq_error.mp h
    exact .statMismatch (hmismatch hinvalid ▸ hstat)
  rcases bind_eq_error.mp h with h | ⟨_, -, h⟩
  · exact .different (mapError_eq_ok.mp hstat) (reject_eq_error.mp h).1
  obtain ⟨_, hget, rfl⟩ := mapError_eq_error.mp h
  exact .getMismatch (hmismatch hinvalid ▸ hget)

/-- **Only evidence condemns a checkpoint.** However the store and the network fail, an error that says that the
object is invalid is backed by evidence: where the transfer was disturbed or the context is done, by the descriptor,
the store's own answer or a content that is not the one the digest names. -/
theorem download_condemns_on_evidence {e : ObjectError} (hinvalid : e.isInvalid = true)
    (h : (downloadCheckpointObject cipher opening c sha store cancelled done checkpoint role object limit).result
      = .error e) : Evidence cipher opening c sha store cancelled done checkpoint role object limit := by
  rcases downloadCheckpointObject_cases rfl with ⟨e', hget, hd⟩ | ⟨body, ending, hget, -, hresult⟩
  · rw [hd] at h
    cases h
    exact getObject_condemns hinvalid hget
  have hbody := get_of_getObject hget
  rcases hresult with ⟨e', he, hcondemns⟩ | ⟨hquiet, rfl, -, hlength, hread⟩
  · cases he.symm.trans h
    rcases hcondemns hinvalid with ⟨hended, hdigest⟩ | ⟨hquiet, hsize⟩
    · exact .corrupt hbody hended hdigest
    · exact .missized hbody hquiet hsize
  · rw [List.take_of_length_le (by omega)] at hread
    obtain ⟨e', hdecrypt, rfl⟩ := mapError_eq_error.mp (hread.symm.trans h)
    exact .rejected hbody hquiet hinvalid hdecrypt

theorem download_condemns_on_evidence_vm :
    Evidence demoCipher (fun _ _ _ _ => none) demoEncryptor vmSha vmStore (fun _ => false) false (ascii "k") (ascii "vm")
      vmObject 8 :=
  download_condemns_on_evidence (e := .read (.invalid (.chunk 0))) rfl
    (show (vmDownload fun _ _ _ _ => none).result = _ by decide +kernel)

/-! ## Round trip -/

/-- A bound that is not reached changes nothing. -/
theorem decryptRecords_within {limit : Nat} {r : Opened}
    (hr : decryptRecords opening .calm key header purpose fuel chunk input written allocated = r) :
    r.written.length ≤ limit →
      decryptRecords opening (.bounded limit) key header purpose fuel chunk input written allocated = r := by
  induction fuel generalizing chunk input written allocated r with
  | zero =>
    subst hr
    exact fun _ => rfl
  | succ fuel ih =>
    subst hr
    -- the two runs differ in nothing but what they may write
    have hread : readRecord (.bounded limit) input = readRecord .calm input := rfl
    unfold decryptRecords
    rw [hread]
    split
    · exact fun _ => rfl
    rw [if_neg (by simp [Env.calm]), if_neg (by simp [Env.bounded])]
    split
    · exact fun _ => rfl
    next n nonce sealed rest hrecord =>
    dsimp only
    split
    · exact fun _ => rfl
    split
    · exact fun _ => rfl
    next opened _ =>
    split
    · exact fun _ => rfl
    split
    · exact fun _ => rfl
    rw [emit_calm]
    intro hle
    have hgrows := @decryptRecords_keeps opening key header purpose rest (written ++ opened) (allocated ++ [n]) fuel
      (chunk + 1) .calm (fun w => (written ++ opened).length ≤ w.length)
      (fun b w hw => by simpa [emit_calm] using Nat.le_add_right_of_le hw) le_rfl
    -- a piece that the calm run keeps is within the bound
    have hfits : emit (.bounded limit) opened written = (true, written ++ opened) := by
      rw [List.length_append] at hgrows
      unfold emit Env.bounded
      dsimp only at hle ⊢
      rw [boundedWriter, if_neg (by omega)]
    rw [hfits]
    exact ih rfl hle

theorem decrypt_within {limit : Nat} {r : Opened} (hr : decrypt cipher opening c .calm input purpose = r)
    (hle : r.written.length ≤ limit) :
    decrypt cipher opening c (.bounded limit) input purpose = r := by
  subst hr
  have hread : readFull (.bounded limit) = readFull .calm := rfl
  revert hle
  unfold decrypt
  rw [hread]
  split
  · exact fun _ => rfl
  split
  · exact fun _ => rfl
  split
  · exact fun _ => rfl
  split
  · exact fun _ => rfl
  exact decryptRecords_within rfl

theorem encryptCheckpointObject_eq_ok {env : Env} {salt media plaintext file : Bytes} (hlimit : limit < 2 ^ 63 - 1)
    (h : encryptCheckpointObject cipher c sha env salt checkpoint role media plaintext limit = .ok (object, file)) :
    c.key ≠ [] ∧ 0 < limit ∧ plaintext.length ≤ limit.toNat ∧ object = ⟨sha.digest file, file.length, media⟩
      ∧ file = completeStream cipher c salt plaintext (purposeOf checkpoint role) := by
  unfold encryptCheckpointObject at h
  split at h
  · cases h
  next hpositive =>
  -- below the largest `int64` the limit does not wrap
  have hmost : (limit + 1).bmod (2 ^ 64) = limit + 1 := Int.bmod_eq_of_le (by omega) (by omega)
  simp only [hmost] at h
  split at h
  · cases h
  next hok =>
  split at h
  · cases h
  next hfits =>
  cases h
  rw [if_neg (by omega), List.take_of_length_le (by omega)] at hok
  rw [if_neg (by omega), List.take_of_length_le (by omega)]
  refine ⟨fun hkey => ?_, by omega, by omega, rfl, encrypt_ok rfl hok⟩
  simp [encrypt, hkey] at hok

/-- **What was staged is restored.** A store that has the file behind its descriptor gives its plaintext back. -/
theorem staged_object_is_restored (hcorrect : Correct cipher opening) {env : Env} {salt media plaintext file : Bytes}
    (hsalt : salt.length = saltSize) (hmedia : media ≠ [] ∧ trimSpace media = media)
    (hlimit : limit.toNat ≤ (maxRecords - 1) * chunkSize)
    (hstaged : encryptCheckpointObject cipher c sha env salt checkpoint role media plaintext limit = .ok (object, file))
    (hstat : store.stat object.digest = .ok object) (hget : store.get object.digest = .ok ⟨file, .eof, false⟩) :
    downloadCheckpointObject cipher opening c sha store (fun _ => false) false checkpoint role object limit
      = ⟨.ok (), plaintext⟩ := by
  have hsmall : limit < 2 ^ 63 - 1 := by
    rw [maxRecords_eq, chunkSize_eq] at hlimit
    omega
  obtain ⟨hkey, hpositive, hfits, rfl, hfile⟩ := encryptCheckpointObject_eq_ok hsmall hstaged
  have hchunks {n : Nat} (hn : n ≤ limit.toNat) : chunks n < maxRecords :=
    Nat.lt_of_le_of_lt (chunks_le_iff.2 (hn.trans hlimit)) (by decide)
  have hlength : file.length = headerSize + (plaintext.length + (chunks plaintext.length + 1) * 36) := by
    rw [hfile, completeStream, List.length_append, length_headerOf hsalt, length_framesFrom _ _ _ _ _ (Nat.zero_add _),
      Nat.zero_mul, Nat.sub_zero]
  have hbound : encryptedCheckpointSize limit =
      .ok (headerSize + (limit.toNat + (chunks limit.toNat + 1) * 36) : Nat) := by
    rw [← encryptedCheckpointSize_eq (hchunks le_rfl), Int.toNat_of_nonneg hpositive.le]
  have hvalid : Descriptor.Valid ⟨sha.digest file, file.length, media⟩ := by
    refine ⟨sha.valid file, ?_, hmedia⟩
    show 1 ≤ (file.length : Int)
    rw [hlength, headerSize_eq]
    omega
  have hsize : ¬((file.length : Int) > (headerSize + (limit.toNat + (chunks limit.toNat + 1) * 36) : Nat)) := by
    have hmono : chunks plaintext.length ≤ chunks limit.toNat :=
      chunks_le_iff.2 (hfits.trans (chunks_le_iff.1 le_rfl))
    omega
  have hbody : getObject store ⟨sha.digest file, file.length, media⟩ limit = .ok ⟨file, .eof, false⟩ := by
    simp only [getObject, hbound, hstat, hget, Except.mapError, ok_bind, reject_false (not_not.mpr hvalid),
      reject_false hsize, reject_false (not_not.mpr rfl)]
  -- the plaintext is within the bound, so the bounded writer takes all of it
  obtain ⟨r, hr⟩ : ∃ r, decrypt cipher opening c .calm file (purposeOf checkpoint role) = r := ⟨_, rfl⟩
  obtain ⟨hok, hwritten⟩ := decrypt_completeStream hcorrect hkey hsalt (hchunks hfits) (hfile ▸ hr)
  have hdecrypt := decrypt_within hr (hwritten ▸ hfits)
  have htake : file.take (Int.toNat file.length + 1) = file := List.take_of_length_le (by omega)
  have hstream : streamErrors sha ⟨file, .eof, false⟩ (sha.digest file) (Int.toNat file.length + 1) = [] :=
    streamErrors_spec.1.mpr ⟨rfl, rfl, rfl⟩
  unfold downloadCheckpointObject
  rw [hbody]
  simp only [fst_read, ending_read hstream, hstream, htake]
  rw [if_neg (by simp), if_neg (by simp), show Env.mk (fun _ => false) _ _ = .bounded limit.toNat from rfl, hdecrypt, hok,
    hwritten]
  rfl

theorem staged_object_is_restored_vm :
    vmDownload (fun _ _ sealed _ => some (sealed.take (sealed.length - tagSize))) = ⟨.ok (), [1, 2, 3]⟩ := by
  have hstaged : encryptCheckpointObject demoCipher demoEncryptor vmSha .calm (List.replicate 32 3) (ascii "k")
      (ascii "vm") (ascii "m") [1, 2, 3] 8 = .ok (vmObject, vmFile) := by rfl
  refine staged_object_is_restored ?_ rfl (by decide) (by decide) hstaged rfl rfl
  intro key nonce plaintext additional
  simp [demoCipher]

end Helmr.Checkpoint
