import Helmr.Lib.FiniteMap
import Mathlib

/-!
# Sums over finite maps

`total f m` is the sum of `f` over the values of a finite map. `total_insert_new`, `total_erase` and `total_replace`
say what a step does to it; `total_nonneg` and `le_total` bound it where every value counts for at least zero. `Holds`
and `SubMap` are kept by the same steps.
-/

namespace MapSum

open FiniteMap

variable {κ β : Type}

/-- The sum of `f` over the values of a map. -/
def total (f : β → Int) (m : AList fun _ : κ => β) : Int := (m.entries.map fun e => f e.2).sum

variable {f : β → Int} {m o : AList fun _ : κ => β} {k : κ} {v w : β}

@[simp] theorem total_empty : total f (∅ : AList fun _ : κ => β) = 0 := rfl

variable [DecidableEq κ]

theorem total_insert_new (h : m.lookup k = none) : total f (m.insert k v) = total f m + f v := by
  unfold total
  rw [AList.entries_insert_of_notMem (AList.lookup_eq_none.mp h), List.map_cons, List.sum_cons]
  exact Int.add_comm _ _

/-- An entry of a map and the rest of it, in some order of its entries. -/
theorem perm_erase (h : m.lookup k = some v) :
    m.entries.Perm (⟨k, v⟩ :: (m.erase k).entries) := by
  have hmem : k ∈ m.entries.keys := AList.lookup_isSome.mp (by rw [h]; rfl)
  obtain ⟨b, l₁, l₂, -, heq, herase⟩ := List.exists_of_kerase hmem
  have hb : b = v := by
    have : b ∈ m.lookup k := AList.mem_lookup_iff.mpr (by rw [heq]; simp)
    rw [h] at this
    exact (Option.some.inj this).symm
  show m.entries.Perm (⟨k, v⟩ :: m.entries.kerase k)
  rw [herase, heq, hb]
  exact List.perm_middle

theorem total_erase (h : m.lookup k = some v) : total f (m.erase k) = total f m - f v := by
  have hsum : total f m = f v + total f (m.erase k) := by
    unfold total
    rw [((perm_erase h).map fun e => f e.2).sum_eq, List.map_cons, List.sum_cons]
  omega

theorem total_replace (h : m.lookup k = some v) :
    total f (m.insert k w) = total f m - f v + f w := by
  have hinsert : total f (m.insert k w) = f w + total f (m.erase k) := by
    unfold total
    rw [AList.entries_insert, List.map_cons, List.sum_cons]
    rfl
  rw [hinsert, total_erase h, Int.add_comm]

/-- Every value of a map satisfies `P`. -/
def Holds (P : β → Prop) (m : AList fun _ : κ => β) : Prop := ∀ k v, m.lookup k = some v → P v

variable {P : β → Prop}

theorem Holds.entry (h : Holds P m) {e : Sigma fun _ : κ => β} (he : e ∈ m.entries) : P e.2 :=
  h e.1 e.2 (AList.mem_lookup_iff.mpr he)

theorem Holds.insert (h : Holds P m) (hv : P v) : Holds P (m.insert k v) := by
  intro j u hu
  rcases lookup_insert_eq_some.mp hu with ⟨-, rfl⟩ | ⟨-, hu⟩
  · exact hv
  · exact h j u hu

theorem Holds.erase (h : Holds P m) : Holds P (m.erase k) := fun j u hu =>
  h j u (lookup_erase_eq_some.mp hu).2

theorem total_nonneg (h : Holds (fun v => 0 ≤ f v) m) : 0 ≤ total f m := by
  apply List.sum_nonneg
  intro x hx
  obtain ⟨e, he, rfl⟩ := List.mem_map.mp hx
  exact h.entry he

/-- One value counts for no more than all of them. -/
theorem le_total (h : Holds (fun v => 0 ≤ f v) m) (hk : m.lookup k = some v) : f v ≤ total f m := by
  have hrest := total_nonneg (h.erase (k := k))
  rw [total_erase hk] at hrest
  omega

/-! ## Maps below a map -/

/-- `o` has the entries of `m` at some of its keys. -/
def SubMap (o m : AList fun _ : κ => β) : Prop := ∀ k v, o.lookup k = some v → m.lookup k = some v

theorem SubMap.insert_right (h : SubMap o m) (hk : o.lookup k = none) : SubMap o (m.insert k v) := by
  intro j u hu
  have hj : j ≠ k := by
    rintro rfl
    cases hk.symm.trans hu
  exact lookup_insert_eq_some.mpr (.inr ⟨hj, h j u hu⟩)

theorem SubMap.insert_new (h : SubMap o m) (hk : m.lookup k = none) : SubMap o (m.insert k v) := by
  apply h.insert_right
  cases ho : o.lookup k with
  | none => rfl
  | some u => cases hk.symm.trans (h k u ho)

theorem SubMap.insert_left (h : SubMap o m) (hk : m.lookup k = some v) : SubMap (o.insert k v) m := by
  intro j u hu
  rcases lookup_insert_eq_some.mp hu with ⟨rfl, rfl⟩ | ⟨-, hu⟩
  · exact hk
  · exact h j u hu

theorem SubMap.insert (h : SubMap o m) : SubMap (o.insert k v) (m.insert k v) := by
  intro j u hu
  rw [lookup_insert_eq_some] at hu ⊢
  exact hu.imp_right fun hu => ⟨hu.1, h j u hu.2⟩

theorem SubMap.erase (h : SubMap o m) : SubMap (o.erase k) (m.erase k) := by
  intro j u hu
  rw [lookup_erase_eq_some] at hu ⊢
  exact ⟨hu.1, h j u hu.2⟩

theorem SubMap.erase_left (h : SubMap o m) : SubMap (o.erase k) m := fun j u hu =>
  h j u (lookup_erase_eq_some.mp hu).2

theorem SubMap.holds (h : SubMap o m) (hm : Holds P m) : Holds P o := fun k v hv => hm k v (h k v hv)

end MapSum
