import Helmr.Wire.Text

/-!
# Wire — standard Base64

The padded standard alphabet. Encoding maps each group of three octets to four characters; decoding
ignores carriage returns and line feeds, demands padding in the last group and, not being
strict, ignores the unused low bits of a padded group. The two facts the framings above need are
the round trip `decode_encode` and the exact length `length_encode`.
-/

namespace Wire.Base64

open Wire

def pad : UInt8 := 61

/-- The character of a six-bit digit. -/
def char64 (k : Nat) : UInt8 :=
  if k < 26 then UInt8.ofNat (65 + k)
  else if k < 52 then UInt8.ofNat (71 + k)
  else if k < 62 then UInt8.ofNat (k - 4)
  else if k = 62 then 43
  else 47

/-- The six-bit digit of a character of the alphabet. -/
def val64 (c : UInt8) : Option Nat :=
  let n := c.toNat
  if 65 ≤ n ∧ n ≤ 90 then some (n - 65)
  else if 97 ≤ n ∧ n ≤ 122 then some (n - 71)
  else if 48 ≤ n ∧ n ≤ 57 then some (n + 4)
  else if n = 43 then some 62
  else if n = 47 then some 63
  else none

def encode : Bytes → Bytes
  | [] => []
  | [x] => [char64 (x.toNat / 4), char64 (x.toNat % 4 * 16), pad, pad]
  | [x, y] =>
    [char64 (x.toNat / 4), char64 (x.toNat % 4 * 16 + y.toNat / 16), char64 (y.toNat % 16 * 4), pad]
  | x :: y :: z :: rest =>
    char64 (x.toNat / 4) :: char64 (x.toNat % 4 * 16 + y.toNat / 16)
      :: char64 (y.toNat % 16 * 4 + z.toNat / 64) :: char64 (z.toNat % 64) :: encode rest

/-- Decode the groups of a text that holds no line breaks. -/
def decodeQuads : Bytes → Option Bytes
  | [] => some []
  | a :: b :: c :: d :: rest =>
    match val64 a, val64 b with
    | some va, some vb =>
      if c = pad then
        if d = pad ∧ rest = [] then some [UInt8.ofNat (va * 4 + vb / 16)] else none
      else match val64 c with
        | none => none
        | some vc =>
          if d = pad then
            if rest = [] then
              some [UInt8.ofNat (va * 4 + vb / 16), UInt8.ofNat (vb % 16 * 16 + vc / 4)]
            else none
          else match val64 d with
            | none => none
            | some vd =>
              (decodeQuads rest).map fun tail =>
                UInt8.ofNat (va * 4 + vb / 16) :: UInt8.ofNat (vb % 16 * 16 + vc / 4)
                  :: UInt8.ofNat (vc % 4 * 64 + vd) :: tail
    | _, _ => none
  | _ => none

/-- `base64.StdEncoding.Decode`: line breaks are skipped wherever they stand. -/
def decode (text : Bytes) : Option Bytes :=
  decodeQuads (text.filter fun c => c ≠ 10 ∧ c ≠ 13)

/-! ## Digits -/

theorem val64_char64 {k : Nat} (h : k < 64) : val64 (char64 k) = some k := by
  have hall : ∀ k : Fin 64, val64 (char64 k) = some k.val := by decide
  exact hall ⟨k, h⟩

/-- An alphabet character is not padding and stands in a JSON literal as it is. -/
theorem char64_plain {k : Nat} (h : k < 64) : char64 k ≠ pad ∧ Json.Plain (char64 k) := by
  have hall : ∀ k : Fin 64, char64 k.val ≠ pad ∧ 32 ≤ (char64 k.val).toNat
      ∧ (char64 k.val).toNat < 0x80 ∧ char64 k.val ≠ 34 ∧ char64 k.val ≠ 92 ∧ char64 k.val ≠ 38
      ∧ char64 k.val ≠ 60 ∧ char64 k.val ≠ 62 := by decide
  exact hall ⟨k, h⟩

theorem plain_char64 {k : Nat} (h : k < 64) : Json.Plain (char64 k) :=
  (char64_plain h).2

theorem plain_pad : Json.Plain pad := by unfold Json.Plain pad; decide

/-- An encoding can stand in a JSON literal as it is. The cases are the groups: none, one, two or three octets. -/
theorem plain_encode (b : Bytes) : ∀ c ∈ encode b, Json.Plain c := by
  induction b using encode.induct with
  | case1 => simp [encode]
  | case2 x =>
    have hx := x.toNat_lt
    simp only [encode, List.forall_mem_cons]
    exact ⟨plain_char64 (by omega), plain_char64 (by omega), plain_pad, plain_pad, List.forall_mem_nil _⟩
  | case3 x y =>
    have hx := x.toNat_lt
    have hy := y.toNat_lt
    simp only [encode, List.forall_mem_cons]
    exact ⟨plain_char64 (by omega), plain_char64 (by omega), plain_char64 (by omega), plain_pad,
      List.forall_mem_nil _⟩
  | case4 x y z rest ih =>
    have hx := x.toNat_lt
    have hy := y.toNat_lt
    have hz := z.toNat_lt
    simp only [encode, List.forall_mem_cons]
    exact ⟨plain_char64 (by omega), plain_char64 (by omega), plain_char64 (by omega), plain_char64 (by omega), ih⟩

/-! ## The round trip -/

theorem ofNat_eq_of_toNat {x : UInt8} {n : Nat} (h : n = x.toNat) : UInt8.ofNat n = x := by
  rw [h, UInt8.ofNat_toNat]

/-- Group by group, the digits of a group give its octets back. -/
theorem decodeQuads_encode (b : Bytes) : decodeQuads (encode b) = some b := by
  induction b using encode.induct with
  | case1 => rfl
  | case2 x =>
    have hx := x.toNat_lt
    simp only [encode, decodeQuads]
    rw [val64_char64 (by omega), val64_char64 (by omega)]
    simp only [if_true, true_and]
    rw [ofNat_eq_of_toNat (x := x) (by omega)]
  | case3 x y =>
    have hx := x.toNat_lt
    have hy := y.toNat_lt
    simp only [encode, decodeQuads]
    rw [val64_char64 (by omega), val64_char64 (by omega), val64_char64 (by omega)]
    simp only [if_neg (char64_plain (show y.toNat % 16 * 4 < 64 by omega)).1, if_true]
    rw [ofNat_eq_of_toNat (x := x) (by omega), ofNat_eq_of_toNat (x := y) (by omega)]
  | case4 x y z rest ih =>
    have hx := x.toNat_lt
    have hy := y.toNat_lt
    have hz := z.toNat_lt
    simp only [encode, decodeQuads]
    rw [val64_char64 (by omega), val64_char64 (by omega), val64_char64 (by omega),
      val64_char64 (by omega), ih]
    simp only [if_neg (char64_plain (show y.toNat % 16 * 4 + z.toNat / 64 < 64 by omega)).1,
      if_neg (char64_plain (show z.toNat % 64 < 64 by omega)).1, Option.map_some]
    rw [ofNat_eq_of_toNat (x := x) (by omega), ofNat_eq_of_toNat (x := y) (by omega),
      ofNat_eq_of_toNat (x := z) (by omega)]

/-- **Decoding undoes encoding.** An encoding holds no line break, so the filter keeps it whole. -/
theorem decode_encode (b : Bytes) : decode (encode b) = some b := by
  have hfilter : (encode b).filter (fun c => c ≠ 10 ∧ c ≠ 13) = encode b := by
    rw [List.filter_eq_self]
    intro c hc
    have hge : 32 ≤ c.toNat := (plain_encode b c hc).1
    have h10 : c ≠ 10 := by rintro rfl; simp at hge
    have h13 : c ≠ 13 := by rintro rfl; simp at hge
    simp [h10, h13]
  rw [decode, hfilter, decodeQuads_encode]

theorem length_encode (b : Bytes) : (encode b).length = 4 * ((b.length + 2) / 3) := by
  induction b using encode.induct with
  | case1 => rfl
  | case2 x => simp [encode]
  | case3 x y => simp [encode]
  | case4 x y z rest ih =>
    simp only [encode, List.length_cons, ih]
    omega

end Wire.Base64
