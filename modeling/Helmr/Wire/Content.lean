import Helmr.Wire.Bytes

/-!
# Wire — contents

A content assigns an octet to every position: the abstract reading of a disk, a memory or a file. `window c offset
length` is the string a range read of it returns. Reads (`slice_window`), copies into a buffer (`patch_window`),
writes (`splice_splice`) and concatenation (`window_add`) are equations between windows, so a reader that fills a
buffer piece by piece is followed by rewriting alone.
-/

namespace Wire

abbrev Content := Nat → UInt8

def window (c : Content) (offset length : Nat) : Bytes :=
  (List.range length).map fun i => c (offset + i)

variable {c c' g : Content} {o n m p : Nat}

@[simp] theorem length_window (c : Content) (o n : Nat) : (window c o n).length = n := by
  simp [window]

@[simp] theorem window_zero (c : Content) (o : Nat) : window c o 0 = [] := rfl

theorem getElem?_window (c : Content) (o : Nat) {i n : Nat} (h : i < n) :
    (window c o n)[i]? = some (c (o + i)) := by
  simp [window, h]

theorem getElem?_window_ge (c : Content) (o : Nat) {i n : Nat} (h : n ≤ i) :
    (window c o n)[i]? = none := by
  simp [window, h]

/-- A window depends only on the positions inside it. -/
theorem window_congr (h : ∀ p, o ≤ p → p < o + n → c p = c' p) : window c o n = window c' o n := by
  unfold window
  refine List.map_congr_left fun i hi => h _ (by omega) ?_
  have := List.mem_range.mp hi
  omega

/-- Equal windows agree at each of their positions. -/
theorem window_inj (h : window c o n = window c' o n) (hlo : o ≤ p) (hhi : p < o + n) :
    c p = c' p := by
  have hget := congrArg (fun l => l[p - o]?) h
  simp only [getElem?_window _ _ (show p - o < n by omega)] at hget
  simpa [show o + (p - o) = p by omega] using hget

theorem window_add (c : Content) (o m n : Nat) :
    window c o (m + n) = window c o m ++ window c (o + m) n := by
  simp [window, List.range_add, Function.comp_def, Nat.add_assoc]

/-- Windows side by side are one window. -/
theorem flatMap_window (c : Content) (a k m : Nat) :
    (List.range' a k).flatMap (fun b => window c (b * m) m) = window c (a * m) (k * m) := by
  induction k generalizing a with
  | zero => simp
  | succ k ih =>
    rw [List.range'_succ, List.flatMap_cons, ih, Nat.succ_mul, Nat.succ_mul, Nat.add_comm (k * m), window_add]

theorem window_zeros (o n : Nat) : window (fun _ => 0) o n = List.replicate n 0 := by
  simp [window]

theorem slice_window (h : p + m ≤ n) : slice (window c o n) p m = window c (o + p) m := by
  apply List.ext_getElem?
  intro i
  by_cases hi : i < m
  · rw [getElem?_slice hi, getElem?_window _ _ (show p + i < n by omega), getElem?_window _ _ hi,
      Nat.add_assoc]
  · rw [getElem?_window_ge _ _ (by omega), List.getElem?_eq_none]
    rw [length_slice (by simpa using h)]
    omega

/-- Copying a window of one content into a window of another. -/
theorem patch_window (hlo : o ≤ p) (hhi : p + m ≤ o + n) :
    patch (window g o n) (p - o) (window c p m)
      = window (fun x => if p ≤ x ∧ x < p + m then c x else g x) o n := by
  have hfit : (p - o) + (window c p m).length ≤ (window g o n).length := by simp; omega
  apply List.ext_getElem?
  intro i
  rw [getElem?_patch hfit, length_window]
  by_cases hi : i < n
  · by_cases hin : p - o ≤ i ∧ i < p - o + m
    · rw [if_pos hin, getElem?_window _ _ (show i - (p - o) < m by omega), getElem?_window _ _ hi,
        if_pos (by omega), show p + (i - (p - o)) = o + i by omega]
    · rw [if_neg hin, getElem?_window _ _ hi, getElem?_window _ _ hi, if_neg (by omega)]
  · rw [if_neg (by omega), getElem?_window_ge _ _ (by omega), getElem?_window_ge _ _ (by omega)]

/-- Every string is a window of the content it spells at its own position. -/
theorem window_getD (b : Bytes) (o : Nat) : window (fun p => b.getD (p - o) 0) o b.length = b := by
  apply List.ext_getElem?
  intro i
  by_cases hi : i < b.length
  · rw [getElem?_window _ _ hi, Nat.add_sub_cancel_left]
    simp [hi]
  · rw [getElem?_window_ge _ _ (by omega), List.getElem?_eq_none (by omega)]

/-- The content after `data` is written at `offset`. -/
def splice (c : Content) (offset : Nat) (data : Bytes) : Content := fun p =>
  if offset ≤ p ∧ p < offset + data.length then data.getD (p - offset) 0 else c p

@[simp] theorem splice_nil (c : Content) (offset : Nat) : splice c offset [] = c := by
  funext p
  exact if_neg (by simp)

theorem splice_of_le {c : Content} {o q : Nat} {data : Bytes} (hq : o + data.length ≤ q) :
    splice c o data q = c q :=
  if_neg (by omega)

theorem window_splice_self (c : Content) (o : Nat) (data : Bytes) :
    window (splice c o data) o data.length = data := by
  refine Eq.trans (window_congr fun p hlo hhi => ?_) (window_getD data o)
  exact if_pos ⟨hlo, hhi⟩

theorem window_splice_before {c : Content} {o lo n : Nat} {data : Bytes} (hfit : lo + n ≤ o) :
    window (splice c o data) lo n = window c lo n :=
  window_congr fun p _ hhi => if_neg (by omega)

/-- Writing on where a write ended is one longer write. -/
theorem splice_splice (c : Content) (o : Nat) (a b : Bytes) :
    splice (splice c o a) (o + a.length) b = splice c o (a ++ b) := by
  funext p
  simp only [splice, List.length_append, List.getD_eq_getElem?_getD]
  by_cases hb : o + a.length ≤ p ∧ p < o + a.length + b.length
  · rw [if_pos hb, if_pos (by omega), List.getElem?_append_right (by omega)]
    congr 2
    omega
  · rw [if_neg hb]
    by_cases ha : o ≤ p ∧ p < o + a.length
    · rw [if_pos ha, if_pos (by omega), List.getElem?_append_left (by omega)]
    · rw [if_neg ha, if_neg (by omega)]

/-- A part of written data is a window of the content it spells. -/
theorem slice_eq_window {data : Bytes} {offset lo n : Nat} (hlo : offset ≤ lo)
    (hhi : lo + n ≤ offset + data.length) :
    slice data (lo - offset) n = window (fun p => data.getD (p - offset) 0) lo n := by
  have hdata := window_getD data offset
  calc slice data (lo - offset) n
      = slice (window (fun p => data.getD (p - offset) 0) offset data.length) (lo - offset) n := by rw [hdata]
    _ = window (fun p => data.getD (p - offset) 0) (offset + (lo - offset)) n := slice_window (by omega)
    _ = window (fun p => data.getD (p - offset) 0) lo n := by rw [Nat.add_sub_cancel' hlo]

end Wire
