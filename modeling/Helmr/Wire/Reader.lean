import Helmr.Wire.Bytes

/-!
# Wire — readers

A reader is the bytes it will deliver, which may be endless, and what a read says once they have ended. How it cuts
them into reads does not matter to `readFull`; it matters to a single read, which may return nothing. `next_add` puts
two reads together, `byte_resumed` a replayed text and the rest of the reader, and `next_of_split` reads a text that
is known.
-/

namespace Wire

variable {ε : Type}

structure Reader (ε : Type) where
  byte : Nat → Option UInt8
  ended : ∀ n, byte n = none → byte (n + 1) = none
  /-- What a read fails with after the last byte; the end of the input otherwise. -/
  fault : Option ε
  /-- A read from this position first returns no byte and no error. -/
  stalls : Nat → Bool

inductive ReadError (ε : Type)
  | eof
  | unexpectedEOF
  | noProgress
  | fault (cause : ε)

namespace Reader

/-- The reader of a text, which ends after it. -/
def ofBytes (b : Bytes) : Reader ε where
  byte n := b[n]?
  ended n h := by
    rw [List.getElem?_eq_none_iff] at h ⊢
    omega
  fault := none
  stalls _ := false

/-- The next `n` bytes, if there are as many. -/
def next (r : Reader ε) : (pos n : Nat) → Option Bytes
  | _, 0 => some []
  | pos, n + 1 => (r.byte pos).bind fun b => (r.next (pos + 1) n).map (b :: ·)

/-- `io.ReadFull` from a position. -/
def readFull (r : Reader ε) (pos n : Nat) : Except (ReadError ε) Bytes :=
  match r.next pos n with
  | some bytes => .ok bytes
  | none =>
    match r.fault with
    | some cause => .error (.fault cause)
    | none => .error (if (r.byte pos).isNone then .eof else .unexpectedEOF)

/-- How many bytes a full read takes, also when it fails. -/
def drawn (r : Reader ε) : (pos n : Nat) → Nat
  | _, 0 => 0
  | pos, n + 1 => if (r.byte pos).isSome then r.drawn (pos + 1) n + 1 else 0

/-- `io.MultiReader` of a text and of a reader from a position on. -/
def resumed (text : Bytes) (r : Reader ε) (pos : Nat) : Reader ε where
  byte n := if n < text.length then text[n]? else r.byte (pos + (n - text.length))
  ended n h := by
    split at h
    · next hn => simp [hn] at h
    · next hn =>
      rw [if_neg (by omega), show pos + (n + 1 - text.length) = pos + (n - text.length) + 1 by omega]
      exact r.ended _ h
  fault := r.fault
  stalls n := if n < text.length then false else r.stalls (pos + (n - text.length))

/-- One read of one byte. -/
def readByte (r : Reader ε) (pos : Nat) : Except (ReadError ε) UInt8 :=
  if r.stalls pos then .error .noProgress
  else
    match r.byte pos with
    | some b => .ok b
    | none =>
      match r.fault with
      | some cause => .error (.fault cause)
      | none => .error .eof

variable {r : Reader ε} {pos n : Nat} {bytes : Bytes}

/-- One byte, and the ones after it. -/
theorem next_succ (h : r.next pos (n + 1) = some bytes) :
    ∃ b rest, r.byte pos = some b ∧ r.next (pos + 1) n = some rest ∧ bytes = b :: rest := by
  rw [next, Option.bind_eq_some_iff] at h
  obtain ⟨b, hb, h⟩ := h
  obtain ⟨rest, hrest, rfl⟩ := Option.map_eq_some_iff.mp h
  exact ⟨b, rest, hb, hrest, rfl⟩

theorem length_next (h : r.next pos n = some bytes) : bytes.length = n := by
  induction n generalizing pos bytes with
  | zero =>
    cases h
    rfl
  | succ n ih =>
    obtain ⟨b, rest, -, hrest, rfl⟩ := next_succ h
    rw [List.length_cons, ih hrest]

theorem drawn_le (r : Reader ε) (pos n : Nat) : r.drawn pos n ≤ n := by
  induction n generalizing pos with
  | zero => exact le_refl 0
  | succ n ih =>
    rw [drawn]
    split
    · exact Nat.succ_le_succ (ih (pos + 1))
    · exact Nat.zero_le _

/-- Reading on where a read ended. -/
theorem next_add {m : Nat} {a b : Bytes} (ha : r.next pos m = some a) (hb : r.next (pos + m) n = some b) :
    r.next pos (m + n) = some (a ++ b) := by
  induction m generalizing pos a with
  | zero =>
    cases ha
    rw [Nat.zero_add]
    exact hb
  | succ m ih =>
    obtain ⟨x, rest, hx, hrest, rfl⟩ := next_succ ha
    rw [show pos + (m + 1) = pos + 1 + m by omega] at hb
    rw [show m + 1 + n = m + n + 1 by omega, next, hx, Option.bind_some, ih hrest hb]
    rfl

theorem getElem?_next {r : Reader ε} {pos n : Nat} {bytes : Bytes} (h : r.next pos n = some bytes) {i : Nat}
    (hi : i < n) : bytes[i]? = r.byte (pos + i) := by
  induction n generalizing pos bytes i with
  | zero => omega
  | succ n ih =>
    obtain ⟨b, rest, hb, hrest, rfl⟩ := next_succ h
    cases i with
    | zero => exact hb.symm
    | succ i =>
      rw [List.getElem?_cons_succ, ih hrest (by omega), show pos + 1 + i = pos + (i + 1) by omega]

/-- **What was read, followed by the rest, is what there was.** -/
theorem byte_resumed {text : Bytes} (h : r.next 0 n = some text) (i : Nat) :
    (resumed text r n).byte i = r.byte i := by
  have hlength := length_next h
  show (if i < text.length then text[i]? else r.byte (n + (i - text.length))) = r.byte i
  split
  · next hi => rw [getElem?_next h (by omega), Nat.zero_add]
  · next hi => rw [show n + (i - text.length) = i by omega]

theorem next_one (h : r.next pos 1 = some bytes) : ∃ b, r.byte pos = some b ∧ bytes = [b] := by
  obtain ⟨b, rest, hb, hrest, rfl⟩ := next_succ h
  cases hrest
  exact ⟨b, hb, rfl⟩

theorem readFull_eq_ok : r.readFull pos n = .ok bytes ↔ r.next pos n = some bytes := by
  unfold readFull
  split
  · rename_i found hfound
    rw [hfound]
    exact ⟨fun h => congrArg some (Except.ok.inj h), fun h => congrArg Except.ok (Option.some.inj h)⟩
  · rename_i hnone
    rw [hnone]
    constructor
    · intro h
      split at h <;> cases h
    · intro h
      cases h

/-- A text is read part by part. -/
theorem next_ofBytes (before bytes after : Bytes) :
    (ofBytes (before ++ bytes ++ after) : Reader ε).next before.length bytes.length = some bytes := by
  induction bytes generalizing before with
  | nil => rfl
  | cons b rest ih =>
    have htail := ih (before ++ [b])
    rw [List.append_assoc before, List.singleton_append] at htail
    have hbyte : (ofBytes (before ++ b :: rest ++ after) : Reader ε).byte before.length = some b := by
      show (before ++ b :: rest ++ after)[before.length]? = some b
      rw [List.append_assoc, List.getElem?_append_right (le_refl _), Nat.sub_self]
      rfl
    rw [List.length_cons, next, hbyte]
    rw [List.length_append, List.length_singleton] at htail
    rw [Option.bind_some, htail]
    rfl

/-- The part of a text at a position, read where the text is split around it. -/
theorem next_of_split {text : Bytes} (before after : Bytes) (h : text = before ++ bytes ++ after)
    (hpos : pos = before.length) (hn : n = bytes.length) :
    (ofBytes text : Reader ε).next pos n = some bytes := by
  rw [h, hpos, hn]
  exact next_ofBytes before bytes after

end Reader

end Wire
