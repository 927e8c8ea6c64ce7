import Helmr.Nbd.Transmission

/-!
# Nbd — framing of a whole stream

A stream is a list of requests and a disconnect, and `answers` says what the device makes of the
requests one after the other. `serveRequest_request` takes the server through one request: it reads
exactly its octets, also the payload of a write it refuses, and writes one reply, with data behind it only
for a read that succeeded. `serve_requests` is the induction over the stream.
-/

namespace Helmr.Nbd

open Wire

structure Request where
  flags : Nat
  cmd : Nat
  cookie : Bytes
  off : Nat
  n : Nat
  payload : Bytes
  deriving DecidableEq, Repr

/-- The request fits its fields; a write carries its payload, other commands carry none. -/
structure Request.WellFormed (r : Request) : Prop where
  flags : r.flags < 2 ^ 16
  cmd : r.cmd < 2 ^ 16
  cookie : r.cookie.length = 8
  off : r.off < 2 ^ 64
  n : r.n ≤ maxRequest
  payload : r.payload.length = if r.cmd = 1 then r.n else 0

/-- A disconnect command with flags is answered like every other request with flags. -/
def Request.Disconnects (r : Request) : Prop := r.flags = 0 ∧ r.cmd = 2

instance (r : Request) : Decidable r.Disconnects := inferInstanceAs (Decidable (_ ∧ _))

def Request.header (r : Request) : Bytes :=
  beBytes 4 0x25609513 ++ beBytes 2 r.flags ++ beBytes 2 r.cmd ++ r.cookie ++ beBytes 8 r.off ++ beBytes 4 r.n

def Request.encode (r : Request) : Bytes := r.header ++ r.payload

/-- The end of a stream. -/
def disconnect (cookie : Bytes) : Request := ⟨0, 2, cookie, 0, 0, []⟩

/-! ## What is to happen -/

/-- The call that an accepted request makes; `none` for a refused one. -/
def Request.call (size : Nat) (r : Request) : Option Call :=
  if r.flags ≠ 0 ∨ r.off > size ∨ r.n > size - r.off then none
  else match r.cmd with
    | 0 => some (.readAt r.off r.n)
    | 1 => some (.writeAt r.off r.payload)
    | 3 => if r.n ≠ 0 ∨ r.off ≠ 0 then none else some .flush
    | 4 => some (.trim r.off r.n)
    | _ => none

/-- The error number and the data with which a request is answered. -/
structure Answer where
  errno : Nat
  data : Bytes
  deriving DecidableEq, Repr

variable {δ : Type}

/-- A call on a device. -/
def Call.answer (dev : BlockDevice δ) (d : δ) : Call → Answer × δ
  | readAt offset length =>
    let ((buffer, count, err), d) := dev.readAt d length offset
    (if err = none ∧ count = length then ⟨0, buffer.val⟩ else ⟨5, []⟩, d)
  | writeAt offset payload =>
    let ((count, err), d) := dev.writeAt d payload offset
    (if err = none ∧ count = payload.length then ⟨0, []⟩ else ⟨writeErrno err, []⟩, d)
  | trim offset length =>
    let (err, d) := dev.trim d offset length
    (if err = none then ⟨0, []⟩ else ⟨writeErrno err, []⟩, d)
  | flush =>
    let (err, d) := dev.flush d
    (if err = none then ⟨0, []⟩ else ⟨5, []⟩, d)

def Request.answer (dev : BlockDevice δ) (size : Nat) (d : δ) (r : Request) : Answer × δ :=
  match r.call size with
  | some call => call.answer dev d
  | none => (⟨22, []⟩, d)

/-- The answers to the requests in their order, and the device after them. -/
def answers (dev : BlockDevice δ) (size : Nat) : δ → List Request → List Answer × δ
  | d, [] => ([], d)
  | d, r :: rest =>
    let (a, d) := r.answer dev size d
    let (as, d) := answers dev size d rest
    (a :: as, d)

def frame (r : Request) (a : Answer) : Bytes := reply a.errno r.cookie ++ a.data

/-- The range a call touches lies in the export. -/
def Call.InRange (size : Int) : Call → Prop
  | readAt offset length => 0 ≤ offset ∧ offset + length ≤ size
  | writeAt offset payload => 0 ≤ offset ∧ offset + payload.length ≤ size
  | trim offset length => 0 ≤ offset ∧ offset + length ≤ size
  | flush => True

/-- No operation reports a fatal error. -/
structure BlockDevice.NeverFatal (dev : BlockDevice δ) : Prop where
  readAt : ∀ d n off, ∀ e ∈ (dev.readAt d n off).1.2.2, e.fatal = false
  writeAt : ∀ d b off, ∀ e ∈ (dev.writeAt d b off).1.2, e.fatal = false
  trim : ∀ d off n, ∀ e ∈ (dev.trim d off n).1, e.fatal = false
  flush : ∀ d, ∀ e ∈ (dev.flush d).1, e.fatal = false

/-- Every `Write` takes something. -/
def Writer.Progresses (w : Writer) : Prop :=
  ∀ written offered, 0 < offered → ∃ n, w written offered = some n ∧ 0 < n

/-! ## Reading a request -/

variable {r : Request} {rest : Bytes}

theorem length_header (h : r.WellFormed) : r.header.length = 28 := by
  simp [Request.header, h.cookie]

theorem readFull_append {a : Bytes} {n : Nat} (h : a.length = n) (b : Bytes) :
    readFull n (a ++ b) = .ok (a, b) := by
  subst h
  simp [readFull]

theorem parseHeader_header (h : r.WellFormed) :
    parseHeader r.header = ⟨0x25609513, r.flags, r.cmd, r.cookie, r.off, r.n⟩ := by
  have hn : r.n < 2 ^ 32 := lt_of_le_of_lt h.n (by decide)
  -- each field is the window behind the fields before it
  have hmagic : slice r.header 0 4 = beBytes 4 0x25609513 :=
    slice_of_split [] (by simp only [Request.header, List.append_assoc, List.nil_append]; rfl) rfl (by simp)
  have hflags : slice r.header 4 2 = beBytes 2 r.flags :=
    slice_of_split (beBytes 4 0x25609513) (by simp only [Request.header, List.append_assoc]; rfl)
      (by simp) (by simp)
  have hcmd : slice r.header 6 2 = beBytes 2 r.cmd :=
    slice_of_split (beBytes 4 0x25609513 ++ beBytes 2 r.flags)
      (by simp only [Request.header, List.append_assoc]; rfl) (by simp) (by simp)
  have hcookie : slice r.header 8 8 = r.cookie :=
    slice_of_split (beBytes 4 0x25609513 ++ beBytes 2 r.flags ++ beBytes 2 r.cmd)
      (by simp only [Request.header, List.append_assoc]; rfl) (by simp) h.cookie.symm
  have hoff : slice r.header 16 8 = beBytes 8 r.off :=
    slice_of_split (beBytes 4 0x25609513 ++ beBytes 2 r.flags ++ beBytes 2 r.cmd ++ r.cookie)
      (by simp only [Request.header, List.append_assoc]; rfl) (by simp [h.cookie]) (by simp)
  have hlen : slice r.header 24 4 = beBytes 4 r.n :=
    slice_of_split (beBytes 4 0x25609513 ++ beBytes 2 r.flags ++ beBytes 2 r.cmd ++ r.cookie ++ beBytes 8 r.off)
      (by simp only [Request.header]; exact (List.append_nil _).symm) (by simp [h.cookie]) (by simp)
  unfold parseHeader
  rw [hmagic, hflags, hcmd, hcookie, hoff, hlen, beNat_beBytes (by decide),
    beNat_beBytes (lt_of_lt_of_eq h.flags (by norm_num)), beNat_beBytes (lt_of_lt_of_eq h.cmd (by norm_num)),
    beNat_beBytes (lt_of_lt_of_eq h.off (by norm_num)), beNat_beBytes (lt_of_lt_of_eq hn (by norm_num))]

/-! ## Writing a reply -/

variable {w : Writer} {cookie : Bytes} {c : Conn δ} {size : Int} {dev : BlockDevice δ}

theorem writeAll_eq (hw : w.Progresses) :
    ∀ (fuel : Nat) (b output : Bytes), b.length ≤ fuel → writeAll w fuel b output = (.ok (), output ++ b) := by
  intro fuel
  induction fuel with
  | zero =>
    intro b output hb
    rw [List.length_eq_zero_iff.mp (Nat.le_zero.mp hb), List.append_nil]
    rfl
  | succ fuel ih =>
    intro b output hb
    rw [writeAll]
    split
    · next hzero => rw [List.length_eq_zero_iff.mp hzero, List.append_nil]
    · next hne =>
      obtain ⟨n, hn, hpos⟩ := hw output.length b.length (Nat.pos_of_ne_zero hne)
      simp only [hn, if_neg (Nat.ne_of_gt hpos)]
      rw [ih (b.drop n) (output ++ b.take n) (by rw [List.length_drop]; omega), List.append_assoc,
        List.take_append_drop]

theorem respond_eq (hw : w.Progresses) {outcome : Outcome} (hfatal : ∀ e ∈ outcome.deviceErr, e.fatal = false) :
    respond w cookie outcome c
      = (.ok (), { c with output := c.output ++ reply outcome.errno cookie ++ outcome.result }) := by
  have hnone : (outcome.deviceErr.filter fun e => e.fatal) = none := by
    rw [Option.filter_eq_none_iff]
    intro e he
    simp [hfatal e he]
  simp only [respond, hnone, writeAll_eq hw _ _ _ le_rfl]

/-! ## One request -/

theorem int64_of_le {off : Nat} (hsize : size < 2 ^ 63) (hoff : off ≤ size.toNat) (hpos : 0 < size) :
    int64 off = off := by
  unfold int64
  rw [if_pos]
  omega

/-- The outcome of a command with the answer `a`, and the connection after it. -/
def Comes (p : Outcome × Conn δ) (c : Conn δ) (call : Option Call) (a : Answer × δ) : Prop :=
  p.2 = { c with device := a.2, calls := c.calls ++ call.toList } ∧ p.1.errno = a.1.errno
    ∧ p.1.result = a.1.data ∧ ∀ e ∈ p.1.deviceErr, e.fatal = false

/-- The code asks whether the device failed, the answer whether it did not. -/
theorem Comes.either {failed ok : Prop} [Decidable failed] [Decidable ok] {x y : Outcome × Conn δ} {call : Option Call}
    {a b : Answer} {d : δ} (h : failed ↔ ¬ok) (hok : Comes x c call (a, d)) (hfailed : Comes y c call (b, d)) :
    Comes (if failed then y else x) c call (if ok then a else b, d) := by
  by_cases hcase : ok
  · rwa [if_neg (by tauto), if_pos hcase]
  · rwa [if_pos (by tauto), if_neg hcase]

theorem serveRequest_disconnect (hcookie : cookie.length = 8) (hinput : c.input = (disconnect cookie).encode ++ rest) :
    serveRequest w dev size c = (.stop (.ok ()), { c with input := rest }) := by
  have hwell : (disconnect cookie).WellFormed :=
    ⟨show 0 < 2 ^ 16 by decide, show 2 < 2 ^ 16 by decide, hcookie, show 0 < 2 ^ 64 by decide,
      Nat.zero_le _, rfl⟩
  have hread : readFull 28 c.input = .ok ((disconnect cookie).header, rest) := by
    rw [hinput, Request.encode, List.append_assoc, readFull_append (length_header hwell)]
    rfl
  simp only [serveRequest, hread, parseHeader_header hwell]
  rfl

section Requests

variable (hdev : dev.NeverFatal) (hsize : size < 2 ^ 63) (hpos : 0 < size) (hw : w.Progresses)
include hdev hsize hpos

/-- What a command comes to is its answer. -/
theorem perform_comes (c : Conn δ)
    (hin : ¬(r.flags ≠ 0 ∨ r.off > size.toNat ∨ r.n > size.toNat - r.off)) :
    Comes (perform dev ⟨0x25609513, r.flags, r.cmd, r.cookie, r.off, r.n⟩ r.payload c) c
      (r.call size.toNat) (r.answer dev size.toNat c.device) := by
  have hoff : int64 r.off = r.off := int64_of_le hsize (by omega) hpos
  have hrefused : Comes (refused, c) c none (⟨22, []⟩, c.device) :=
    ⟨by simp, rfl, rfl, fun e he => absurd he (by simp [refused])⟩
  have hnone : ∀ e ∈ (none : Option DeviceError), e.fatal = false := fun e he => absurd he (by simp)
  obtain ⟨readAt, writeAt, trim, flush⟩ := dev
  obtain ⟨hreadAt, hwriteAt, htrim, hflush⟩ := hdev
  simp only at hreadAt hwriteAt htrim hflush
  simp only [perform, hoff]
  split
  · -- a read
    next hcmd =>
    have hcall : r.call size.toNat = some (.readAt r.off r.n) := by
      simp only [Request.call, if_neg hin, hcmd]
    simp only [Request.answer, hcall, Call.answer]
    have hfatal := hreadAt c.device r.n r.off
    generalize readAt c.device r.n r.off = out at hfatal ⊢
    obtain ⟨⟨buffer, count, err⟩, d⟩ := out
    simp only [buffer.property]
    exact .either (by tauto) ⟨rfl, rfl, rfl, hnone⟩ ⟨rfl, rfl, rfl, hfatal⟩
  · -- a write
    next hcmd =>
    have hcall : r.call size.toNat = some (.writeAt r.off r.payload) := by
      simp only [Request.call, if_neg hin, hcmd]
    simp only [Request.answer, hcall, Call.answer]
    have hfatal := hwriteAt c.device r.payload r.off
    generalize writeAt c.device r.payload r.off = out at hfatal ⊢
    obtain ⟨⟨count, err⟩, d⟩ := out
    simp only
    exact .either (by tauto) ⟨rfl, rfl, rfl, hnone⟩ ⟨rfl, rfl, rfl, hfatal⟩
  · -- a flush
    next hcmd =>
    split
    · next hrange =>
      have hcall : r.call size.toNat = none := by
        simp only [Request.call, if_neg hin, hcmd, if_pos hrange]
      simp only [Request.answer, hcall]
      exact hrefused
    · next hrange =>
      have hcall : r.call size.toNat = some .flush := by
        simp only [Request.call, if_neg hin, hcmd, if_neg hrange]
      simp only [Request.answer, hcall, Call.answer]
      have hfatal := hflush c.device
      generalize flush c.device = out at hfatal ⊢
      obtain ⟨err, d⟩ := out
      simp only
      exact .either (by tauto) ⟨rfl, rfl, rfl, hnone⟩ ⟨rfl, rfl, rfl, hfatal⟩
  · -- a trim
    next hcmd =>
    have hcall : r.call size.toNat = some (.trim r.off r.n) := by
      simp only [Request.call, if_neg hin, hcmd]
    simp only [Request.answer, hcall, Call.answer]
    have hfatal := htrim c.device r.off r.n
    generalize trim c.device r.off r.n = out at hfatal ⊢
    obtain ⟨err, d⟩ := out
    simp only
    exact .either (by tauto) ⟨rfl, rfl, rfl, hnone⟩ ⟨rfl, rfl, rfl, hfatal⟩
  · next hne₀ hne₁ hne₃ hne₄ =>
    have hcall : r.call size.toNat = none := by
      simp only [Request.call, if_neg hin]
    simp only [Request.answer, hcall]
    exact hrefused

/-- The connection after a request was answered. -/
def Conn.answered (c : Conn δ) (dev : BlockDevice δ) (size : Nat) (r : Request) (rest : Bytes) : Conn δ where
  input := rest
  output := c.output ++ frame r (r.answer dev size c.device).1
  device := (r.answer dev size c.device).2
  calls := c.calls ++ (r.call size).toList

include hw

theorem handle_eq (c : Conn δ) (hnot : ¬r.Disconnects) :
    handle w dev size ⟨0x25609513, r.flags, r.cmd, r.cookie, r.off, r.n⟩ r.payload c
      = (.again, c.answered dev size.toNat r c.input) := by
  have hcomes : Comes (if r.flags ≠ 0 ∨ r.off > size.toNat ∨ r.n > size.toNat - r.off then (refused, c)
      else perform dev ⟨0x25609513, r.flags, r.cmd, r.cookie, r.off, r.n⟩ r.payload c) c
      (r.call size.toNat) (r.answer dev size.toNat c.device) := by
    split
    · next hout =>
      have hcall : r.call size.toNat = none := by rw [Request.call, if_pos hout]
      rw [Request.answer, hcall]
      exact ⟨by simp, rfl, rfl, fun e he => absurd he (by simp [refused])⟩
    · next hin => exact perform_comes hdev hsize hpos c hin
  have hkind : ¬(r.flags = 0 ∧ r.cmd = 2) := hnot
  simp only [handle, if_neg hkind]
  obtain ⟨hc', herrno, hresult, hfatal⟩ := hcomes
  rw [respond_eq hw hfatal, hc', herrno, hresult]
  simp only [Conn.answered, frame, List.append_assoc]

/-- **One round reads one request and writes one reply.** -/
theorem serveRequest_request (h : r.WellFormed) (hnot : ¬r.Disconnects) (hinput : c.input = r.encode ++ rest) :
    serveRequest w dev size c = (.again, c.answered dev size.toNat r rest) := by
  have hread : readFull 28 c.input = .ok (r.header, r.payload ++ rest) := by
    rw [hinput, Request.encode, List.append_assoc, readFull_append (length_header h)]
  simp only [serveRequest, hread, parseHeader_header h, ne_eq, not_true, if_false,
    if_neg (Nat.not_lt.mpr h.n)]
  split
  · next hwrite =>
    have hpayload : r.payload.length = r.n := by rw [h.payload, if_pos hwrite]
    simp only [readFull_append hpayload]
    rw [handle_eq hdev hsize hpos hw _ hnot]
    rfl
  · next hother =>
    -- only a write carries a payload
    have hpayload : r.payload = [] := List.length_eq_zero_iff.mp (by rw [h.payload, if_neg hother])
    have hhandle := handle_eq hdev hsize hpos hw { c with input := rest } hnot
    rw [hpayload] at hhandle
    rw [hpayload, List.nil_append, hhandle]
    rfl

/-! ## The stream -/

/-- **A run over the requests of a stream answers each of them and stops at the disconnect.** -/
theorem serve_requests (hcookie : cookie.length = 8) (requests : List Request)
    (hreq : ∀ r ∈ requests, r.WellFormed ∧ ¬r.Disconnects) :
    ∀ (fuel round : Nat) (c : Conn δ), requests.length < fuel →
      c.input = requests.flatMap Request.encode ++ ((disconnect cookie).encode ++ rest) →
      serve w (fun _ => false) dev size fuel round c = (.ok (), {
        input := rest
        output := c.output
          ++ (requests.zip (answers dev size.toNat c.device requests).1).flatMap fun p => frame p.1 p.2
        device := (answers dev size.toNat c.device requests).2
        calls := c.calls ++ requests.filterMap (Request.call size.toNat) }) := by
  induction requests with
  | nil =>
    intro fuel round c hfuel hinput
    obtain ⟨fuel, rfl⟩ : ∃ k, fuel = k + 1 := ⟨fuel - 1, by simp at hfuel; omega⟩
    rw [serve, serveRequest_disconnect hcookie hinput]
    simp [answers]
  | cons r requests ih =>
    intro fuel round c hfuel hinput
    obtain ⟨fuel, rfl⟩ : ∃ k, fuel = k + 1 := ⟨fuel - 1, by simp at hfuel; omega⟩
    obtain ⟨hwell, hnot⟩ := hreq r List.mem_cons_self
    rw [List.flatMap_cons, List.append_assoc] at hinput
    rw [serve, serveRequest_request hdev hsize hpos hw hwell hnot hinput]
    simp only [Bool.false_eq_true, if_false]
    rw [ih (fun r' hr' => hreq r' (List.mem_cons_of_mem _ hr')) fuel (round + 1) _
      (by simp only [List.length_cons] at hfuel; omega) rfl]
    have hcalls : (r.call size.toNat).toList ++ requests.filterMap (Request.call size.toNat)
        = (r :: requests).filterMap (Request.call size.toNat) := by
      cases hcall : r.call size.toNat <;> simp [hcall]
    simp only [Conn.answered, answers, List.zip_cons_cons, List.flatMap_cons, List.append_assoc, hcalls]

end Requests

theorem Request.call_inRange (hpos : 0 < size) (hwell : r.WellFormed) {call : Call}
    (h : r.call size.toNat = some call) : call.InRange size := by
  unfold Request.call at h
  split at h
  · cases h
  · next hin =>
    have hpayload := hwell.payload
    split at h
    · cases h
      simp only [Call.InRange]
      omega
    · next hwrite =>
      cases h
      rw [if_pos hwrite] at hpayload
      simp only [Call.InRange]
      omega
    · split at h <;> cases h
      exact trivial
    · cases h
      simp only [Call.InRange]
      omega
    · cases h

/-- Data belongs to the answer of a read that succeeded, and to no other. -/
theorem length_answer (dev : BlockDevice δ) (size : Nat) (d : δ) (r : Request) :
    (r.answer dev size d).1.data.length
      = if r.cmd = 0 ∧ (r.answer dev size d).1.errno = 0 then r.n else 0 := by
  have hother {a : Answer} (hdata : a.data = []) (h : r.cmd ≠ 0 ∨ a.errno ≠ 0) :
      a.data.length = if r.cmd = 0 ∧ a.errno = 0 then r.n else 0 := by
    rw [if_neg (by tauto), hdata]
    rfl
  unfold Request.answer
  split
  · next call hcall =>
    unfold Request.call at hcall
    split at hcall
    · cases hcall
    · split at hcall
      · next hcmd =>
        cases hcall
        simp only [Call.answer]
        split
        · rw [if_pos ⟨hcmd, rfl⟩]
          exact (dev.readAt d r.n r.off).1.1.property
        · exact hother rfl (.inr nofun)
      -- the other commands have no data, and the rest is no call
      all_goals
        try split at hcall
      all_goals cases hcall
      all_goals
        have hne : r.cmd ≠ 0 := by omega
        simp only [Call.answer]
        split <;> exact hother rfl (.inl hne)
  · exact hother rfl (.inr nofun)

theorem length_answers (dev : BlockDevice δ) (size : Nat) (d : δ) (requests : List Request) :
    (answers dev size d requests).1.length = requests.length := by
  induction requests generalizing d with
  | nil => rfl
  | cons r requests ih => simp only [answers, List.length_cons, ih]

/-- Every answer is the one the device gave in the state it had by then. -/
theorem mem_zip_answers {size : Nat} {d : δ} {requests : List Request} {p : Request × Answer}
    (h : p ∈ requests.zip (answers dev size d requests).1) :
    p.1 ∈ requests ∧ ∃ d', p.2 = (p.1.answer dev size d').1 := by
  induction requests generalizing d with
  | nil => cases h
  | cons r requests ih =>
    simp only [answers, List.zip_cons_cons, List.mem_cons] at h
    rcases h with rfl | h
    · exact ⟨List.mem_cons_self, d, rfl⟩
    · obtain ⟨hmem, hanswer⟩ := ih h
      exact ⟨List.mem_cons_of_mem _ hmem, hanswer⟩

/-- **Transmission keeps framing and order.** On the octets of any well-formed requests and a disconnect
the server stops without an error right behind the disconnect. The device has seen the calls of the
accepted requests, in their order and within the export. The output is one reply for each request, of 16
octets and with its cookie, followed by the data of a read that succeeded and by nothing else. -/
theorem transmission_keeps_framing {w : Writer} (hw : w.Progresses) {dev : BlockDevice δ}
    (hdev : dev.NeverFatal) {size : Int} (hpos : 0 < size) (hsize : size < 2 ^ 63) {cookie : Bytes}
    (hcookie : cookie.length = 8) {requests : List Request}
    (hreq : ∀ r ∈ requests, r.WellFormed ∧ ¬r.Disconnects) (rest : Bytes) (d : δ) :
    let served := serveTransmission w (fun _ => false) dev size
      (requests.flatMap Request.encode ++ ((disconnect cookie).encode ++ rest)) d
    let replies := (answers dev size.toNat d requests).1
    served.1 = .ok () ∧ served.2.input = rest
      ∧ served.2.calls = requests.filterMap (Request.call size.toNat)
      ∧ (∀ call ∈ served.2.calls, call.InRange size)
      ∧ served.2.device = (answers dev size.toNat d requests).2
      ∧ replies.length = requests.length
      ∧ served.2.output
        = (requests.zip replies).flatMap (fun p => reply p.2.errno p.1.cookie ++ p.2.data)
      ∧ ∀ p ∈ requests.zip replies,
        (reply p.2.errno p.1.cookie).length = 16 ∧ slice (reply p.2.errno p.1.cookie) 8 8 = p.1.cookie
          ∧ p.2.data.length = (if p.1.cmd = 0 ∧ p.2.errno = 0 then p.1.n else 0)
          ∧ (p.1.call size.toNat = none → p.2 = ⟨22, []⟩) := by
  intro served replies
  have hserved : served = (.ok (), {
      input := rest
      output := [] ++ (requests.zip replies).flatMap fun p => frame p.1 p.2
      device := (answers dev size.toNat d requests).2
      calls := [] ++ requests.filterMap (Request.call size.toNat) }) := by
    -- a request is not empty, so the stream has more octets than requests
    have hfuel : requests.length
        < (requests.flatMap Request.encode ++ ((disconnect cookie).encode ++ rest)).length + 1 := by
      have hlen : requests.length ≤ (requests.flatMap Request.encode).length := by
        rw [List.length_flatMap]
        refine List.length_le_sum_of_one_le _ ?_ |>.trans_eq' (by simp)
        intro n hn
        obtain ⟨r, hr, rfl⟩ := List.mem_map.mp hn
        rw [Request.encode, List.length_append, length_header (hreq r hr).1]
        omega
      rw [List.length_append]
      omega
    show serveTransmission _ _ _ _ _ _ = _
    rw [serveTransmission, if_neg (by omega)]
    exact serve_requests hdev hsize hpos hw hcookie requests hreq _ 0 _ hfuel rfl
  rw [hserved]
  refine ⟨rfl, rfl, rfl, fun call hcall => ?_, rfl, length_answers _ _ _ _, rfl, fun p hp => ?_⟩
  · obtain ⟨r, hr, hrcall⟩ := List.mem_filterMap.mp hcall
    exact Request.call_inRange hpos (hreq r hr).1 hrcall
  · obtain ⟨hmem, d', hanswer⟩ := mem_zip_answers hp
    have hcookie' := (hreq p.1 hmem).1.cookie
    refine ⟨by simp [reply, hcookie'], ?_, ?_, fun hnone => ?_⟩
    · exact slice_of_split (beBytes 4 0x67446698 ++ beBytes 4 p.2.errno) (by rw [reply]; exact (List.append_nil _).symm)
        (by simp) hcookie'.symm
    · rw [hanswer]
      exact length_answer dev size.toNat d' p.1
    · rw [hanswer, Request.answer, hnone]

namespace Demo

/-- A device of zeros that has no room for writes. -/
def full : BlockDevice Nat where
  readAt d n _ := ((⟨List.replicate n 0, List.length_replicate⟩, n, none), d + 1)
  writeAt d _ _ := ((0, some ⟨false, true⟩), d + 1)
  trim d _ _ := (none, d + 1)
  flush d := (none, d + 1)

def stream : List Request :=
  [⟨0, 1, List.replicate 8 1, 8192, 3, [1, 2, 3]⟩, ⟨0, 1, List.replicate 8 2, 0, 2, [4, 5]⟩,
    ⟨0, 0, List.replicate 8 3, 4, 2, []⟩, ⟨1, 3, List.replicate 8 4, 0, 0, []⟩]

theorem full_neverFatal : full.NeverFatal := by
  constructor <;> simp [full]

theorem stream_wellFormed : ∀ r ∈ stream, r.WellFormed ∧ ¬r.Disconnects := by
  intro r hr
  simp only [stream, List.mem_cons, List.not_mem_nil, or_false] at hr
  rcases hr with rfl | rfl | rfl | rfl <;> exact ⟨⟨by decide, by decide, by decide, by decide, by decide, by decide⟩, by decide⟩

end Demo

theorem transmission_keeps_framing_demo :
    (serveTransmission (fun _ _ => some 1) (fun _ => false) Demo.full 8192
        (Demo.stream.flatMap Request.encode ++ ((disconnect (List.replicate 8 9)).encode ++ [7])) 0).2.calls
      = [.writeAt 0 [4, 5], .readAt 4 2] := by
  have hwriter : Writer.Progresses fun _ _ => some 1 := fun _ _ _ => ⟨1, rfl, Nat.one_pos⟩
  have hcookie : (List.replicate 8 (9 : UInt8)).length = 8 := rfl
  have hsize : (8192 : Int) < 2 ^ 63 := by decide
  have hframing := transmission_keeps_framing hwriter Demo.full_neverFatal (show (0 : Int) < 8192 by decide)
    hsize hcookie Demo.stream_wellFormed [7] 0
  rw [hframing.2.2.1]
  decide +kernel

end Helmr.Nbd
