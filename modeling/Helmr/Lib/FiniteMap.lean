import Mathlib.Data.List.AList

/-!
# Finite maps

What the loops of Go code that delete while they range over a map do: `keep p m` is the map without the entries that
fail `p`, `adjust f m` the map with every value replaced. The order of the loop does not matter. The lemmas
`lookup_…_eq_some` say what each operation finds, and proofs about maps go through them.
-/

namespace FiniteMap

variable {κ β : Type}

/-- The entries that satisfy `p`. -/
def keep (p : κ → β → Bool) (m : AList fun _ : κ => β) : AList fun _ : κ => β :=
  ⟨m.entries.filter fun e => p e.1 e.2, List.NodupKeys.sublist List.filter_sublist m.nodupKeys⟩

/-- Every value replaced by one that its key and it determine. -/
def adjust (f : κ → β → β) (m : AList fun _ : κ => β) : AList fun _ : κ => β :=
  ⟨m.entries.map fun e => ⟨e.1, f e.1 e.2⟩, by
    show (m.entries.map _).keys.Nodup
    rw [List.keys, List.map_map]
    exact m.nodupKeys⟩

variable [DecidableEq κ] {p : κ → β → Bool} {m : AList fun _ : κ => β} {k : κ} {v : β}

theorem lookup_keep_eq_some : (keep p m).lookup k = some v ↔ m.lookup k = some v ∧ p k v = true := by
  have hmem (m' : AList fun _ : κ => β) : m'.lookup k = some v ↔ ⟨k, v⟩ ∈ m'.entries :=
    AList.mem_lookup_iff
  rw [hmem, hmem]
  exact List.mem_filter

theorem lookup_insert_eq_some {j : κ} {w : β} :
    (m.insert k v).lookup j = some w ↔ (j = k ∧ v = w) ∨ (j ≠ k ∧ m.lookup j = some w) := by
  by_cases hj : j = k
  · subst hj
    simp [AList.lookup_insert]
  · rw [AList.lookup_insert_ne hj]
    simp [hj]

theorem lookup_erase_eq_some {j : κ} {w : β} :
    (m.erase k).lookup j = some w ↔ j ≠ k ∧ m.lookup j = some w := by
  by_cases hj : j = k
  · subst hj
    simp [AList.lookup_erase]
  · rw [AList.lookup_erase_ne hj]
    simp [hj]

theorem lookup_adjust_eq_some {f : κ → β → β} {w : β} :
    (adjust f m).lookup k = some w ↔ ∃ v, m.lookup k = some v ∧ f k v = w := by
  have hmem (m' : AList fun _ : κ => β) (x : β) : m'.lookup k = some x ↔ ⟨k, x⟩ ∈ m'.entries :=
    AList.mem_lookup_iff
  simp only [hmem, adjust, List.mem_map]
  constructor
  · rintro ⟨⟨j, v⟩, hv, heq⟩
    cases heq
    exact ⟨v, hv, rfl⟩
  · rintro ⟨v, hv, rfl⟩
    exact ⟨⟨k, v⟩, hv, rfl⟩

end FiniteMap
