import Mathlib.Data.List.Basic
import Mathlib.Data.Nat.Digits.Defs
import Mathlib.Tactic

/-!
# Wire — byte strings

Byte strings are lists of octets. This module owns the facts every framing below needs: fixed-width big-endian
integers (`beNat_beBytes`, `beBytes_beNat` are the two round trips), strings behind their length (`vec_append_inj`: a
vector says where it ends), windows `slice b at len` into a string, and `patch`, the functional reading of an
in-place copy into a window of a buffer (`getElem?_patch`).
-/

namespace Wire

abbrev Bytes := List UInt8

instance lawfulBEqUInt8 : LawfulBEq UInt8 := inferInstance

instance : LawfulBEq Bytes := inferInstance

/-- The octets of an ASCII literal. -/
def ascii (s : String) : Bytes := s.toList.map (fun c => c.toNat.toUInt8)

/-! ## Big-endian integers -/

/-- The low `width` octets of `n`, most significant first. -/
def beBytes : (width n : Nat) → Bytes
  | 0, _ => []
  | width + 1, n => UInt8.ofNat (n / 256 ^ width) :: beBytes width n

/-- The number a big-endian octet string denotes. -/
def beNat (b : Bytes) : Nat := b.foldl (fun acc x => acc * 256 + x.toNat) 0

@[simp] theorem length_beBytes (width n : Nat) : (beBytes width n).length = width := by
  induction width with
  | zero => rfl
  | succ w ih => simp [beBytes, ih]

theorem foldl_be_eq (b : Bytes) (acc : Nat) :
    b.foldl (fun acc x => acc * 256 + x.toNat) acc = acc * 256 ^ b.length + beNat b := by
  unfold beNat
  induction b generalizing acc with
  | nil => simp
  | cons x xs ih =>
    simp only [List.foldl_cons, List.length_cons]
    rw [ih, ih (0 * 256 + x.toNat)]
    ring

theorem beNat_cons (x : UInt8) (b : Bytes) :
    beNat (x :: b) = x.toNat * 256 ^ b.length + beNat b := by
  have h := foldl_be_eq b (0 * 256 + x.toNat)
  simpa [beNat] using h

/-- Writing `n` in `width` octets and reading it back keeps its low `8 * width` bits. -/
theorem beNat_beBytes_mod (width n : Nat) : beNat (beBytes width n) = n % 256 ^ width := by
  induction width with
  | zero => simp [beBytes, beNat, Nat.mod_one]
  | succ w ih =>
    rw [beBytes, beNat_cons, ih, length_beBytes, UInt8.toNat_ofNat']
    have hpow : (256 : Nat) ^ (w + 1) = 256 ^ w * 256 := pow_succ 256 w
    rw [hpow, Nat.mod_mul]
    have h8 : (2 : Nat) ^ 8 = 256 := by norm_num
    rw [h8]
    ring

theorem beNat_beBytes {width n : Nat} (h : n < 256 ^ width) : beNat (beBytes width n) = n := by
  rw [beNat_beBytes_mod, Nat.mod_eq_of_lt h]

theorem beNat_lt (b : Bytes) : beNat b < 256 ^ b.length := by
  induction b with
  | nil => simp [beNat]
  | cons x xs ih =>
    rw [beNat_cons, List.length_cons, pow_succ]
    have hx : x.toNat < 256 := x.toNat_lt
    nlinarith [Nat.zero_le (256 ^ xs.length)]

/-- What is above the octets written does not change them. -/
theorem beBytes_add_mul (w k n : Nat) : beBytes w (k * 256 ^ w + n) = beBytes w n := by
  induction w generalizing k with
  | zero => rfl
  | succ w ih =>
    have hdiv : (k * 256 ^ (w + 1) + n) / 256 ^ w = n / 256 ^ w + 256 * k := by
      rw [show k * 256 ^ (w + 1) + n = n + 256 ^ w * (256 * k) by ring, Nat.add_mul_div_left _ _ (by positivity)]
    have hhead : UInt8.ofNat (n / 256 ^ w + 256 * k) = UInt8.ofNat (n / 256 ^ w) := by
      apply UInt8.toNat_inj.mp
      simp [UInt8.toNat_ofNat']
    rw [beBytes, beBytes, hdiv, hhead, show k * 256 ^ (w + 1) = (256 * k) * 256 ^ w by ring, ih]

/-- Reading an octet string and writing it back at its own width is the identity. -/
theorem beBytes_beNat (b : Bytes) : beBytes b.length (beNat b) = b := by
  induction b with
  | nil => rfl
  | cons x xs ih =>
    have hdiv : (x.toNat * 256 ^ xs.length + beNat xs) / 256 ^ xs.length = x.toNat := by
      rw [show x.toNat * 256 ^ xs.length + beNat xs = beNat xs + 256 ^ xs.length * x.toNat by ring,
        Nat.add_mul_div_left _ _ (by positivity), Nat.div_eq_of_lt (beNat_lt xs), Nat.zero_add]
    rw [List.length_cons, beBytes, beNat_cons, hdiv, beBytes_add_mul, ih, UInt8.ofNat_toNat]

/-- What can be checked of each of the 256 octets. -/
@[elab_as_elim]
theorem forall_octet {P : UInt8 → Prop} (c : UInt8) (h : ∀ n < 256, P (UInt8.ofNat n)) : P c := by
  have hc := h c.toNat c.toNat_lt
  rwa [UInt8.ofNat_toNat] at hc

/-! ## Vectors -/

/-- A string after its length. -/
def vec (width : Nat) (b : Bytes) : Bytes := beBytes width b.length ++ b

@[simp] theorem length_vec (width : Nat) (b : Bytes) : (vec width b).length = width + b.length := by
  rw [vec, List.length_append, length_beBytes]

/-- A vector says where it ends. -/
theorem vec_append_inj {width : Nat} {a b x y : Bytes} (ha : a.length < 256 ^ width) (hb : b.length < 256 ^ width)
    (h : vec width a ++ x = vec width b ++ y) : a = b ∧ x = y := by
  rw [vec, vec, List.append_assoc, List.append_assoc] at h
  obtain ⟨hlength, hrest⟩ := List.append_inj h (by rw [length_beBytes, length_beBytes])
  have heq := congrArg beNat hlength
  rw [beNat_beBytes ha, beNat_beBytes hb] at heq
  exact List.append_inj hrest heq

/-- Codes that say where they end can be told apart one after the other. -/
theorem flatMap_inj_of_delimited {α : Type} {code : α → Bytes} (hne : ∀ a, code a ≠ [])
    (hcode : ∀ a b x y, code a ++ x = code b ++ y → a = b ∧ x = y) {as bs : List α}
    (h : as.flatMap code = bs.flatMap code) : as = bs := by
  induction as generalizing bs with
  | nil =>
    cases bs with
    | nil => rfl
    | cons b bs =>
      rw [List.flatMap_nil, List.flatMap_cons] at h
      exact absurd (List.append_eq_nil_iff.mp h.symm).1 (hne b)
  | cons a as ih =>
    cases bs with
    | nil =>
      rw [List.flatMap_nil, List.flatMap_cons] at h
      exact absurd (List.append_eq_nil_iff.mp h).1 (hne a)
    | cons b bs =>
      rw [List.flatMap_cons, List.flatMap_cons] at h
      obtain ⟨rfl, hrest⟩ := hcode a b _ _ h
      rw [ih hrest]

/-! ## Windows -/

/-- The `len` octets of `b` from position `at`. -/
def slice (b : Bytes) (pos len : Nat) : Bytes := (b.drop pos).take len

theorem length_slice {b : Bytes} {pos len : Nat} (h : pos + len ≤ b.length) :
    (slice b pos len).length = len := by
  simp only [slice, List.length_take, List.length_drop]
  omega

theorem slice_append_left {a b : Bytes} {pos len : Nat} (h : pos + len ≤ a.length) :
    slice (a ++ b) pos len = slice a pos len := by
  have hdrop : (a ++ b).drop pos = a.drop pos ++ b := by
    rw [List.drop_append_of_le_length (by omega)]
  rw [slice, slice, hdrop, List.take_append_of_le_length]
  simp only [List.length_drop]
  omega

theorem slice_append_right (a b : Bytes) (pos len : Nat) :
    slice (a ++ b) (a.length + pos) len = slice b pos len := by
  rw [slice, slice, ← List.drop_drop, List.drop_left]

/-- The middle of a three-part string is the window of its own length after the prefix. -/
theorem slice_middle (pre mid post : Bytes) :
    slice (pre ++ mid ++ post) pre.length mid.length = mid := by
  simp [slice]

/-- A window of a string split around it. -/
theorem slice_of_split (pre : Bytes) {b mid post : Bytes} {pos len : Nat} (hb : b = pre ++ mid ++ post)
    (hpos : pos = pre.length) (hlen : len = mid.length) : slice b pos len = mid := by
  rw [hb, hpos, hlen, slice_middle]

theorem slice_zero_length (b : Bytes) : slice b 0 b.length = b := by
  simp [slice]

theorem slice_slice {b : Bytes} {pos len p n : Nat} (h : p + n ≤ len) :
    slice (slice b pos len) p n = slice b (pos + p) n := by
  rw [slice, slice, slice, List.drop_take, List.drop_drop, List.take_take, Nat.min_eq_left (by omega)]

theorem getElem?_slice {b : Bytes} {pos len i : Nat} (h : i < len) :
    (slice b pos len)[i]? = b[pos + i]? := by
  simp [slice, h]

/-- `patch out pos data` is `out` after `copy(out[pos:], data)` for data that fits. -/
def patch (out : Bytes) (pos : Nat) (data : Bytes) : Bytes :=
  out.take pos ++ data ++ out.drop (pos + data.length)

theorem getElem?_patch {out data : Bytes} {pos : Nat} (h : pos + data.length ≤ out.length)
    (i : Nat) :
    (patch out pos data)[i]?
      = if pos ≤ i ∧ i < pos + data.length then data[i - pos]? else out[i]? := by
  have hpos : (out.take pos).length = pos := by rw [List.length_take]; omega
  unfold patch
  by_cases hlt : i < pos
  · rw [if_neg (by omega), List.append_assoc, List.getElem?_append_left (by omega),
      List.getElem?_take, if_pos hlt]
  · by_cases hmid : i < pos + data.length
    · rw [if_pos ⟨by omega, hmid⟩, List.append_assoc, List.getElem?_append_right (by omega), hpos,
        List.getElem?_append_left (by omega)]
    · rw [if_neg (by omega), List.getElem?_append_right (by simp [hpos]; omega)]
      simp only [List.length_append, hpos, List.getElem?_drop]
      congr 1
      omega

end Wire
