import Mathlib.Data.List.Lex
import Mathlib.Data.List.Sort
import Helmr.Wire.Bytes

/-!
# Wire — the byte-wise order

Strings compare byte by byte. `Beneath sep a b` says that `b` names something below `a`: it continues
`a` after a separator. The names below `a` stand together in the order, but not right behind `a`: a
name that continues `a` by a smaller letter comes between (`Splits`). `isChain_iff` says what it means
for a sorted list that no two neighbours are equal or one beneath the other.
-/

namespace Wire.Order

scoped instance linearOrderUInt8 : LinearOrder UInt8 where
  le_refl := UInt8.le_refl
  le_trans := fun _ _ _ => UInt8.le_trans
  lt_iff_le_not_ge := fun a b => by
    rw [UInt8.lt_iff_toNat_lt, UInt8.le_iff_toNat_le, UInt8.le_iff_toNat_le]
    omega
  le_antisymm := fun _ _ => UInt8.le_antisymm
  le_total := UInt8.le_total
  toDecidableLE := inferInstance
  toDecidableEq := inferInstance
  toDecidableLT := inferInstance

variable {α : Type} [LinearOrder α] {sep : α} {a b c : List α} {l : List (List α)}

def Beneath (sep : α) (a b : List α) : Prop := ∃ rest, b = a ++ sep :: rest

def Splits (sep : α) (a c : List α) : Prop := ∃ d rest, d < sep ∧ c = a ++ d :: rest

theorem lt_append_cons (a : List α) (x : α) (rest : List α) : a < a ++ x :: rest := by
  induction a with
  | nil => exact List.nil_lt_cons x rest
  | cons y a ih => exact List.cons_lt_cons_iff.mpr (.inr ⟨rfl, ih⟩)

theorem Beneath.lt (h : Beneath sep a b) : a < b := by
  obtain ⟨rest, rfl⟩ := h
  exact lt_append_cons a sep rest

theorem Splits.lt (h : Splits sep a c) : a < c := by
  obtain ⟨d, rest, _, rfl⟩ := h
  exact lt_append_cons a d rest

theorem Splits.lt_beneath (h : Splits sep a c) (hb : Beneath sep a b) : c < b := by
  obtain ⟨d, rest, hd, rfl⟩ := h
  obtain ⟨rest', rfl⟩ := hb
  induction a with
  | nil => exact List.cons_lt_cons_iff.mpr (.inl hd)
  | cons y a ih => exact List.cons_lt_cons_iff.mpr (.inr ⟨rfl, ih⟩)

/-- Only these stand between a name and one beneath it. -/
theorem Beneath.between (hb : Beneath sep a b) (hac : a < c) (hcb : c ≤ b) :
    Beneath sep a c ∨ Splits sep a c := by
  obtain ⟨rest, rfl⟩ := hb
  induction a generalizing c with
  | nil =>
    cases c with
    | nil => exact absurd hac (lt_irrefl _)
    | cons d c =>
      rcases lt_trichotomy d sep with hd | rfl | hd
      · exact .inr ⟨d, c, hd, rfl⟩
      · exact .inl ⟨c, rfl⟩
      · have hlt : sep :: rest < d :: c := List.cons_lt_cons_iff.mpr (.inl hd)
        exact absurd hcb (not_le.mpr hlt)
  | cons x a ih =>
    cases c with
    | nil => exact absurd hac (List.not_lt_nil _)
    | cons y c =>
      rcases List.cons_lt_cons_iff.mp hac with hxy | ⟨rfl, hac'⟩
      · have hlt : x :: (a ++ sep :: rest) < y :: c := List.cons_lt_cons_iff.mpr (.inl hxy)
        exact absurd hcb (not_le.mpr hlt)
      · have hcb' : c ≤ a ++ sep :: rest := by
          apply le_of_not_gt
          intro hlt
          exact absurd hcb (not_le.mpr (List.cons_lt_cons_iff.mpr (.inr ⟨rfl, hlt⟩)))
        rcases ih hac' hcb' with ⟨rest', rfl⟩ | ⟨d, rest', hd, rfl⟩
        · exact .inl ⟨rest', rfl⟩
        · exact .inr ⟨d, rest', hd, rfl⟩

/-- **What neighbours tell of a sorted list.** Its names are distinct, and every name with others
beneath it is split from them. -/
theorem isChain_iff (hl : l.Pairwise (· ≤ ·)) :
    l.IsChain (fun a b => b ≠ a ∧ ¬Beneath sep a b) ↔
      l.Nodup ∧ ∀ a ∈ l, (∃ b ∈ l, Beneath sep a b) → ∃ c ∈ l, Splits sep a c := by
  induction l with
  | nil => simp
  | cons x l ih =>
    obtain ⟨hx, hsorted⟩ := List.pairwise_cons.mp hl
    cases l with
    | nil =>
      simp only [List.isChain_singleton, List.nodup_singleton, List.mem_singleton, true_and, true_iff]
      rintro _ rfl ⟨_, rfl, hb⟩
      exact absurd hb.lt (lt_irrefl _)
    | cons y t =>
      rw [List.isChain_cons_cons, ih hsorted]
      have hy : ∀ z ∈ y :: t, y ≤ z := by
        intro z hz
        rcases List.mem_cons.mp hz with rfl | hz
        · exact le_rfl
        · exact (List.pairwise_cons.mp hsorted).1 z hz
      constructor
      · rintro ⟨⟨hne, hnot⟩, hnodup, hsplit⟩
        have hlt : x < y := lt_of_le_of_ne (hx y List.mem_cons_self) (Ne.symm hne)
        have habove (z : List α) (hz : z ∈ y :: t) : x < z := lt_of_lt_of_le hlt (hy z hz)
        refine ⟨List.nodup_cons.mpr ⟨fun hmem => lt_irrefl x (habove x hmem), hnodup⟩, ?_⟩
        rintro a ha ⟨b, hb, hbeneath⟩
        rcases List.mem_cons.mp ha with rfl | ha
        · -- the successor of the name stands between it and what is beneath it
          have hb' : b ∈ y :: t := List.mem_of_ne_of_mem hbeneath.lt.ne' hb
          -- its neighbour is not beneath it, so it is one that splits
          rcases hbeneath.between hlt (hy b hb') with hbeneath' | hsplits
          · exact absurd hbeneath' hnot
          · exact ⟨y, List.mem_cons_of_mem _ List.mem_cons_self, hsplits⟩
        · have hxb : x < b := (habove a ha).trans hbeneath.lt
          have hb' : b ∈ y :: t := List.mem_of_ne_of_mem hxb.ne' hb
          obtain ⟨c, hc, hsplits⟩ := hsplit a ha ⟨b, hb', hbeneath⟩
          exact ⟨c, List.mem_cons_of_mem _ hc, hsplits⟩
      · rintro ⟨hnodup, hsplit⟩
        obtain ⟨hnotMem, hnodup'⟩ := List.nodup_cons.mp hnodup
        refine ⟨⟨?_, fun hbeneath => ?_⟩, hnodup', ?_⟩
        · rintro rfl
          exact hnotMem List.mem_cons_self
        · obtain ⟨c, hc, hsplits⟩ := hsplit x List.mem_cons_self
            ⟨y, List.mem_cons_of_mem _ List.mem_cons_self, hbeneath⟩
          have hc' : c ∈ y :: t := List.mem_of_ne_of_mem hsplits.lt.ne' hc
          exact absurd (hy c hc') (not_le.mpr (hsplits.lt_beneath hbeneath))
        · rintro a ha ⟨b, hb, hbeneath⟩
          obtain ⟨c, hc, hsplits⟩ := hsplit a (List.mem_cons_of_mem _ ha)
            ⟨b, List.mem_cons_of_mem _ hb, hbeneath⟩
          have hxc : x < c := lt_of_le_of_lt (hx a ha) hsplits.lt
          exact ⟨c, List.mem_of_ne_of_mem hxc.ne' hc, hsplits⟩

end Wire.Order
