import Mathlib.Data.List.Infix

/-!
# Text with holes

A text cut into plain symbols and holes. `fill f` puts the image of each hole in its place; with the identity it is
the text itself. Where a word stands in a filled text, it either comes from plain symbols that stood side by side, or
it touches what was put in place of a hole (`fill_eq_append`). If the word and the holes begin with a symbol that
they do not have elsewhere, it stands where a hole does (`exists_hole_of_headed`).
-/

namespace Pieces

variable {α : Type}

inductive Piece (α : Type) where
  | plain (a : α)
  | hole (m : List α)
  deriving DecidableEq, Repr

def Piece.hole? : Piece α → Option (List α)
  | plain _ => none
  | hole m => some m

def Piece.fill (f : List α → List α) : Piece α → List α
  | plain a => [a]
  | hole m => f m

def fill (f : List α → List α) (ps : List (Piece α)) : List α := ps.flatMap (Piece.fill f)

def holes (ps : List (Piece α)) : List (List α) := ps.filterMap Piece.hole?

section Basic

variable {f : List α → List α} {ps qs : List (Piece α)} {m : List α}

@[simp] theorem fill_nil : fill f [] = [] := rfl

@[simp] theorem fill_plain (a : α) : fill f (.plain a :: ps) = a :: fill f ps := rfl

@[simp] theorem fill_hole : fill f (.hole m :: ps) = f m ++ fill f ps := rfl

@[simp] theorem fill_append : fill f (ps ++ qs) = fill f ps ++ fill f qs := List.flatMap_append

@[simp] theorem fill_map_plain (s : List α) : fill f (s.map .plain) = s := by
  induction s with
  | nil => rfl
  | cons a s ih => rw [List.map_cons, fill_plain, ih]

theorem mem_holes : m ∈ holes ps ↔ .hole m ∈ ps := by
  unfold holes
  rw [List.mem_filterMap]
  constructor
  · rintro ⟨p, hp, hm⟩
    cases p with
    | plain a => exact absurd hm (by simp [Piece.hole?])
    | hole m' =>
      obtain rfl := Option.some.inj hm
      exact hp
  · intro hp
    exact ⟨.hole m, hp, rfl⟩

end Basic

variable {f : List α → List α} {ps : List (Piece α)} {a w b : List α}

/-- What stands at the beginning of a filled text is plain unless a hole begins within it. -/
theorem fill_eq_append_left (h : fill f ps = w ++ b) :
    (∃ s₁ m s₂, ps = s₁ ++ .hole m :: s₂ ∧ (fill f s₁).length < w.length) ∨
      ∃ s₂, ps = w.map .plain ++ s₂ := by
  induction w generalizing ps with
  | nil => exact .inr ⟨ps, rfl⟩
  | cons c w ih =>
    cases ps with
    | nil => exact absurd h (by simp)
    | cons p ps =>
      cases p with
      -- the first hole within the word decides
      | hole m => exact .inl ⟨[], m, ps, rfl, by simp⟩
      | plain c' =>
        rw [fill_plain, List.cons_append] at h
        obtain ⟨rfl, hrest⟩ := List.cons.inj h
        rcases ih hrest with ⟨s₁, m, s₂, rfl, hlt⟩ | ⟨s₂, rfl⟩
        · exact .inl ⟨.plain c' :: s₁, m, s₂, rfl, by simpa using hlt⟩
        · exact .inr ⟨s₂, rfl⟩

/-- **A word in a filled text is plain, or it touches the filling of a hole.** -/
theorem fill_eq_append (hw : w ≠ []) (h : fill f ps = a ++ w ++ b) :
    (∃ s₁ m s₂, ps = s₁ ++ .hole m :: s₂ ∧ (fill f s₁).length < a.length + w.length ∧
      a.length < (fill f s₁).length + (f m).length) ∨
      ∃ s₁ s₂, ps = s₁ ++ w.map .plain ++ s₂ := by
  induction ps generalizing a with
  | nil => exact absurd h.symm (by simp [hw])
  | cons p ps ih =>
    cases p with
    | hole m =>
      by_cases hin : a.length < (f m).length
      · have hpos := List.length_pos_of_ne_nil hw
        exact .inl ⟨[], m, ps, rfl, by simp; omega, by simpa using hin⟩
      · -- the filling ends before the word begins
        have hfront : f m <+: a := by
          rw [fill_hole, List.append_assoc] at h
          refine List.prefix_of_prefix_length_le (List.prefix_append (f m) (fill f ps)) ?_ (by omega)
          rw [h]
          exact List.prefix_append a (w ++ b)
        obtain ⟨a', rfl⟩ := hfront
        rw [fill_hole, List.append_assoc, List.append_assoc, List.append_cancel_left_eq, ← List.append_assoc] at h
        rcases ih h with ⟨s₁, m', s₂, rfl, hbefore, hafter⟩ | ⟨s₁, s₂, rfl⟩
        · refine .inl ⟨.hole m :: s₁, m', s₂, rfl, ?_, ?_⟩ <;>
            · rw [fill_hole, List.length_append, List.length_append]
              omega
        · exact .inr ⟨.hole m :: s₁, s₂, rfl⟩
    | plain c =>
      cases a with
      | nil =>
        rw [List.nil_append] at h
        rcases fill_eq_append_left h with ⟨s₁, m, s₂, hps, hlt⟩ | ⟨s₂, hps⟩
        · -- the text begins with a symbol, so the hole is not at its beginning
          cases s₁ with
          | nil => exact absurd hps (by simp)
          | cons p s₁ =>
            obtain ⟨rfl, -⟩ := List.cons.inj hps
            refine .inl ⟨.plain c :: s₁, m, s₂, hps, by simpa using hlt, ?_⟩
            rw [fill_plain, List.length_cons, List.length_nil]
            omega
        · exact .inr ⟨[], s₂, hps⟩
      | cons c' a =>
        rw [fill_plain, List.cons_append, List.cons_append] at h
        rcases ih (List.cons.inj h).2 with ⟨s₁, m, s₂, rfl, hbefore, hafter⟩ | ⟨s₁, s₂, rfl⟩
        · refine .inl ⟨.plain c :: s₁, m, s₂, rfl, ?_, ?_⟩ <;>
            · rw [fill_plain, List.length_cons, List.length_cons]
              omega
        · exact .inr ⟨.plain c :: s₁, s₂, rfl⟩

/-! ## Words that begin with a symbol of their own -/

/-- The symbol stands at the beginning and nowhere else. -/
def Headed (c : α) (w : List α) : Prop := ∀ i, w[i]? = some c ↔ i = 0

/-- A word in a text of headed holes stands in plain symbols or at the beginning of a hole. -/
theorem exists_hole_of_headed {c : α} (hw : Headed c w) (hholes : ∀ m, .hole m ∈ ps → Headed c m)
    (h : fill id ps = a ++ w ++ b) :
    (∃ s₁ m s₂, ps = s₁ ++ .hole m :: s₂ ∧ fill id s₁ = a) ∨ ∃ s₁ s₂, ps = s₁ ++ w.map .plain ++ s₂ := by
  have hne : w ≠ [] := by
    rintro rfl
    exact absurd ((hw 0).mpr rfl) (by simp)
  rcases fill_eq_append hne h with ⟨s₁, m, s₂, rfl, hbefore, hafter⟩ | hplain
  · left
    have hm := hholes m (by simp)
    rw [fill_append, fill_hole, id_eq] at h
    rw [id_eq] at hafter
    -- each of the two begins where the other has its first symbol
    have hlen : (fill id s₁).length = a.length := by
      rcases Nat.lt_trichotomy (fill id s₁).length a.length with hlt | heq | hgt
      · have hget := congrArg (·[a.length]?) h
        simp only [List.append_assoc] at hget
        rw [List.getElem?_append_right hlt.le, List.getElem?_append_left (by omega),
          List.getElem?_append_right (le_refl a.length), Nat.sub_self,
          List.getElem?_append_left (List.length_pos_of_ne_nil hne), (hw 0).mpr rfl, hm] at hget
        omega
      · exact heq
      · have hpos : 0 < m.length := by
          refine List.length_pos_of_ne_nil ?_
          rintro rfl
          exact absurd ((hm 0).mpr rfl) (by simp)
        have hget := congrArg (·[(fill id s₁).length]?) h
        simp only [List.append_assoc] at hget
        rw [List.getElem?_append_right (le_refl (fill id s₁).length), Nat.sub_self,
          List.getElem?_append_left hpos, (hm 0).mpr rfl, List.getElem?_append_right hgt.le,
          List.getElem?_append_left (by omega)] at hget
        have hzero := (hw _).mp hget.symm
        omega
    refine ⟨s₁, m, s₂, rfl, ?_⟩
    rw [List.append_assoc] at h
    exact (List.append_inj h hlen).1
  · exact .inr hplain

end Pieces
