import Mathlib.Logic.Relation
import Mathlib.Data.List.Infix

/-!
# Regular expressions

Expressions over an alphabet, with the two anchors of a text, and what they match. `Re.Reaches` is the meaning of an
expression as a relation between places of a text, `Re.ends` computes it, and `Re.mem_ends` says that the two agree;
`Re.matchString_eq_true` is that for whole texts. `compile` reads the part of the RE2 syntax that has literals, `.`,
negated one-letter classes, groups without capture, `*` and `?`; other expressions are refused. `parseSeq_atom` and
`parseSeq_repeat` are the steps of its loop.
-/

namespace Regex

variable {α : Type}

inductive Re (α : Type)
  | atom (p : α → Bool)
  | beginText
  | endText
  | empty
  | seq (a b : Re α)
  | star (a : Re α)
  | opt (a : Re α)

/-- A place in a text: whether it is the start, and what follows. -/
structure Place (α : Type) where
  atStart : Bool
  rest : List α

/-- The expression matches the text between two places. -/
def Re.Reaches : Re α → Place α → Place α → Prop
  | .atom p, s, t => ∃ c, s.rest = c :: t.rest ∧ p c = true ∧ t.atStart = false
  | .beginText, s, t => t = s ∧ s.atStart = true
  | .endText, s, t => t = s ∧ s.rest = []
  | .empty, s, t => t = s
  | .seq a b, s, t => ∃ u, a.Reaches s u ∧ b.Reaches u t
  | .star a, s, t => Relation.ReflTransGen a.Reaches s t
  | .opt a, s, t => t = s ∨ a.Reaches s t

/-- A match may start and end anywhere. -/
def Re.Matches (re : Re α) (text : List α) : Prop :=
  ∃ before after, before ++ after = text ∧ ∃ t, re.Reaches ⟨before.isEmpty, after⟩ t

/-! ## Matching -/

/-- The places that rounds which go on reach. -/
def closure (step : Place α → List (Place α)) : (fuel : Nat) → Place α → List (Place α)
  | 0, s => [s]
  | fuel + 1, s => s :: ((step s).filter (·.rest.length < s.rest.length)).flatMap (closure step fuel)

/-- Where a match from a place can end. -/
def Re.ends : Re α → Place α → List (Place α)
  | .atom p, s =>
    match s.rest with
    | c :: rest => if p c then [⟨false, rest⟩] else []
    | [] => []
  | .beginText, s => if s.atStart then [s] else []
  | .endText, s => if s.rest.isEmpty then [s] else []
  | .empty, s => [s]
  | .seq a b, s => (a.ends s).flatMap b.ends
  | .star a, s => closure a.ends s.rest.length s
  | .opt a, s => s :: a.ends s

/-- `MatchString`. -/
def Re.matchString (re : Re α) (text : List α) : Bool :=
  (List.range (text.length + 1)).any fun i => !(re.ends ⟨i = 0, text.drop i⟩).isEmpty

/-- A match moves on, or stays where it is. -/
theorem Re.Reaches.eq_or_shorter {re : Re α} {s t : Place α} (h : re.Reaches s t) :
    t = s ∨ t.rest.length < s.rest.length := by
  induction re generalizing s t with
  | atom p =>
    obtain ⟨c, hrest, -, -⟩ := h
    right
    rw [hrest, List.length_cons]
    omega
  | beginText => exact .inl h.1
  | endText => exact .inl h.1
  | empty => exact .inl h
  | seq a b iha ihb =>
    obtain ⟨u, ha, hb⟩ := h
    obtain rfl | hu := iha ha
    · exact ihb hb
    · obtain rfl | ht := ihb hb
      · exact .inr hu
      · exact .inr (ht.trans hu)
  | star a iha =>
    -- a step that stays adds nothing
    induction h with
    | refl => exact .inl rfl
    | tail _ hlast ih =>
      obtain rfl | ht := iha hlast
      · exact ih
      · obtain rfl | hu := ih
        · exact .inr ht
        · exact .inr (ht.trans hu)
  | opt a iha =>
    obtain rfl | ha := h
    · exact .inl rfl
    · exact iha ha

/-- Rounds that stay in place add nothing, so as many rounds as there are symbols reach every place. -/
theorem mem_closure {R : Place α → Place α → Prop} {step : Place α → List (Place α)}
    (hstep : ∀ s t, t ∈ step s ↔ R s t) (hshort : ∀ s t, R s t → t = s ∨ t.rest.length < s.rest.length)
    {fuel : Nat} {s t : Place α} (hfuel : s.rest.length ≤ fuel) :
    t ∈ closure step fuel s ↔ Relation.ReflTransGen R s t := by
  induction fuel generalizing s with
  | zero =>
    constructor
    · intro h
      rw [List.mem_singleton.mp h]
    · intro h
      -- nothing is left to match, so no step leaves the place
      have hstay : t = s := by
        induction h with
        | refl => rfl
        | tail _ hlast ih =>
          subst ih
          obtain hend | hend := hshort _ _ hlast
          · exact hend
          · omega
      exact List.mem_singleton.mpr hstay
  | succ fuel ih =>
    have hmem : t ∈ closure step (fuel + 1) s ↔
        t = s ∨ ∃ u, (R s u ∧ u.rest.length < s.rest.length) ∧ t ∈ closure step fuel u := by
      simp only [closure, List.mem_cons, List.mem_flatMap, List.mem_filter, hstep, decide_eq_true_eq]
    rw [hmem]
    constructor
    · rintro (rfl | ⟨u, ⟨hu, hless⟩, ht⟩)
      · exact .refl
      · exact .head hu ((ih (by omega)).mp ht)
    · intro h
      induction h using Relation.ReflTransGen.head_induction_on with
      | refl => exact .inl rfl
      | @head s u hfirst hrest ih' =>
        obtain rfl | hless := hshort _ _ hfirst
        · exact ih' hfuel hmem
        · exact .inr ⟨u, ⟨hfirst, hless⟩, (ih (by omega)).mpr hrest⟩

/-- **The matcher finds what the expression matches.** -/
theorem Re.mem_ends {re : Re α} {s t : Place α} : t ∈ re.ends s ↔ re.Reaches s t := by
  induction re generalizing s t with
  | atom p =>
    rcases s with ⟨b, _ | ⟨c, rest⟩⟩
    · simp [ends, Reaches]
    · rcases t with ⟨b', rest'⟩
      by_cases hc : p c = true
      · simp only [ends, hc, if_true, List.mem_singleton, Reaches, Place.mk.injEq, List.cons.injEq]
        constructor
        · rintro ⟨rfl, rfl⟩
          exact ⟨c, ⟨rfl, rfl⟩, hc, rfl⟩
        · rintro ⟨_, ⟨rfl, rfl⟩, -, hflag⟩
          exact ⟨hflag, rfl⟩
      · simp only [ends, hc, Reaches, List.cons.injEq]
        constructor
        · rintro ⟨⟩
        · rintro ⟨_, ⟨rfl, -⟩, hc', -⟩
          exact absurd hc' hc
  | beginText =>
    by_cases hs : s.atStart = true <;> simp [ends, Reaches, hs]
  | endText =>
    by_cases hs : s.rest = [] <;> simp [ends, Reaches, hs]
  | empty => simp [ends, Reaches]
  | seq a b iha ihb => simp [ends, Reaches, iha, ihb]
  | star a iha => exact mem_closure (fun _ _ => iha) (fun _ _ h => h.eq_or_shorter) (le_refl _)
  | opt a iha => simp [ends, Reaches, iha]

theorem Re.matchString_eq_true {re : Re α} {text : List α} : re.matchString text = true ↔ re.Matches text := by
  have hends (s : Place α) : (!(re.ends s).isEmpty) = true ↔ ∃ t, re.Reaches s t := by
    rw [Bool.not_eq_true', List.isEmpty_eq_false_iff_exists_mem]
    exact exists_congr fun t => mem_ends
  unfold matchString Matches
  simp only [List.any_eq_true, List.mem_range, hends]
  constructor
  · rintro ⟨i, hi, t, ht⟩
    refine ⟨text.take i, text.drop i, List.take_append_drop i text, t, ?_⟩
    have hflag : (text.take i).isEmpty = decide (i = 0) := by
      cases text <;> cases i <;> simp at hi ⊢
    rw [hflag]
    exact ht
  · rintro ⟨before, after, rfl, t, ht⟩
    refine ⟨before.length, by rw [List.length_append]; omega, t, ?_⟩
    have hflag : decide (before.length = 0) = before.isEmpty := by cases before <;> rfl
    rw [List.drop_left, hflag]
    exact ht

/-! ## Matches of a few shapes -/

/-- A run of symbols of a set. -/
theorem Re.reaches_star_atom {p : α → Bool} {s t : Place α} :
    (Re.star (.atom p)).Reaches s t ↔
      ∃ run, s.rest = run ++ t.rest ∧ (∀ c ∈ run, p c = true) ∧ t.atStart = (s.atStart && run.isEmpty) := by
  constructor
  · intro h
    change Relation.ReflTransGen _ s t at h
    induction h using Relation.ReflTransGen.head_induction_on with
    | refl => exact ⟨[], rfl, nofun, by simp⟩
    | head hfirst _ ih =>
      obtain ⟨c, hrest, hc, hflag⟩ := hfirst
      obtain ⟨run, hrun, hall, hflag'⟩ := ih
      refine ⟨c :: run, by rw [hrest, hrun]; rfl, ?_, by rw [hflag', hflag]; simp⟩
      exact List.forall_mem_cons.mpr ⟨hc, hall⟩
  · rintro ⟨run, hrest, hall, hflag⟩
    change Relation.ReflTransGen _ s t
    induction run generalizing s with
    | nil =>
      have hst : s = t := by
        rcases s with ⟨b, rest⟩
        rcases t with ⟨b', rest'⟩
        simp_all
      rw [hst]
    | cons c run ih =>
      have hc := List.forall_mem_cons.mp hall
      apply Relation.ReflTransGen.head (b := ⟨false, run ++ t.rest⟩)
      · exact ⟨c, hrest, hc.1, rfl⟩
      · exact ih rfl hc.2 (by rw [hflag]; simp)

/-- An expression that starts at the start of the text. -/
theorem Re.matches_beginText {re : Re α} {text : List α} :
    (Re.seq .beginText re).Matches text ↔ ∃ t, re.Reaches ⟨true, text⟩ t := by
  constructor
  · rintro ⟨before, after, rfl, t, u, ⟨rfl, hflag⟩, ht⟩
    have hnil : before = [] := List.isEmpty_iff.mp hflag
    subst hnil
    exact ⟨t, ht⟩
  · rintro ⟨t, ht⟩
    exact ⟨[], text, rfl, t, ⟨true, text⟩, ⟨rfl, rfl⟩, ht⟩

/-! ## Syntax -/

def metas : List Char := ['\\', '.', '+', '*', '?', '(', ')', '|', '[', ']', '{', '}', '^', '$']

/-- `QuoteMeta`. -/
def quoteMeta (s : List Char) : List Char := s.flatMap fun c => if c ∈ metas then ['\\', c] else [c]

def isRepeat (c : Char) : Bool := c = '*' || c = '+' || c = '?' || c = '{'

def parseAtom (group : List Char → Option (Re Char × List Char)) : List Char → Option (Re Char × List Char)
  | '^' :: s => some (.beginText, s)
  | '$' :: s => some (.endText, s)
  | '.' :: s => some (.atom (· ≠ '\n'), s)
  | '[' :: '^' :: c :: ']' :: s =>
    if c ∈ ['\\', '[', ']', '^', '-'] then none else some (.atom (· ≠ c), s)
  | '(' :: '?' :: ':' :: s => do
    let (a, rest) ← group s
    match rest with
    | ')' :: rest => some (a, rest)
    | _ => none
  | '\\' :: c :: s => if c ∈ metas then some (.atom (· = c), s) else none
  | c :: s => if c ∈ metas then none else some (.atom (· = c), s)
  | [] => none

/-- An operator after an atom; two in a row are refused. -/
def parseRepeat (a : Re Char) : List Char → Option (Re Char × List Char)
  | [] => some (a, [])
  | c :: s =>
    if isRepeat c then
      if s.head?.any isRepeat then none
      else if c = '*' then some (.star a, s)
      else if c = '?' then some (.opt a, s)
      else none
    else some (a, c :: s)

/-- A sequence, up to a closing bracket or the end. -/
def parseSeq : (fuel : Nat) → List Char → Option (Re Char × List Char)
  | 0, _ => none
  | _ + 1, [] => some (.empty, [])
  | fuel + 1, c :: s =>
    if c = ')' then some (.empty, c :: s)
    else do
      let (a, rest) ← parseAtom (parseSeq fuel) (c :: s)
      let (a, rest) ← parseRepeat a rest
      let (b, rest) ← parseSeq fuel rest
      return (.seq a b, rest)

/-- `regexp.Compile`, without its limits on the size of an expression (`ErrLarge`): only the syntax refuses one. -/
def compile (source : List Char) : Option (Re Char) := do
  let (re, rest) ← parseSeq (source.length + 1) source
  if rest.isEmpty then some re else none

theorem mem_metas_of_isRepeat {c : Char} (h : isRepeat c = true) : c ∈ metas := by
  simp only [isRepeat, Bool.or_eq_true, decide_eq_true_eq] at h
  obtain ((rfl | rfl) | rfl) | rfl := h <;> decide

theorem parseAtom_literal {group : List Char → Option (Re Char × List Char)} {c : Char} (h : c ∉ metas)
    (s : List Char) : parseAtom group (c :: s) = some (.atom (· = c), s) := by
  have hne {m : Char} (hm : m ∈ metas) : c ≠ m := fun heq => h (heq ▸ hm)
  unfold parseAtom
  split
  case h_7 heq =>
    cases heq
    exact if_neg h
  all_goals
    rename_i heq
    cases heq <;> exact absurd rfl (hne (by decide))

theorem parseAtom_escape {group : List Char → Option (Re Char × List Char)} {c : Char} (h : c ∈ metas)
    (s : List Char) : parseAtom group ('\\' :: c :: s) = some (.atom (· = c), s) := by
  simp [parseAtom, h]

/-- An atom without an operator, then the rest of the sequence. -/
theorem parseSeq_atom {fuel : Nat} {c : Char} {s rest : List Char} {a : Re Char} (hc : c ≠ ')')
    (hatom : parseAtom (parseSeq fuel) (c :: s) = some (a, rest)) (hrest : rest.head?.any isRepeat = false) :
    parseSeq (fuel + 1) (c :: s) = (parseSeq fuel rest).map fun r => (.seq a r.1, r.2) := by
  have hrepeat : parseRepeat a rest = some (a, rest) := by
    cases rest with
    | nil => rfl
    | cons d rest =>
      have hd : isRepeat d = false := hrest
      simp [parseRepeat, hd]
  simp only [parseSeq, if_neg hc, hatom, Option.bind_eq_bind, Option.bind_some, hrepeat]
  cases parseSeq fuel rest <;> rfl

/-- An atom with the operator `*` or `?`. -/
theorem parseSeq_repeat {fuel : Nat} {c : Char} {s rest : List Char} {a : Re Char} (hc : c ≠ ')') (star : Bool)
    (hatom : parseAtom (parseSeq fuel) (c :: s) = some (a, (if star then '*' else '?') :: rest))
    (hrest : rest.head?.any isRepeat = false) :
    parseSeq (fuel + 1) (c :: s) =
      (parseSeq fuel rest).map fun r => (.seq (if star then .star a else .opt a) r.1, r.2) := by
  have hrepeat : parseRepeat a ((if star then '*' else '?') :: rest) = some (if star then .star a else .opt a, rest) := by
    cases star <;> simp [parseRepeat, isRepeat, hrest]
  simp only [parseSeq, if_neg hc, hatom, Option.bind_eq_bind, Option.bind_some, hrepeat]
  cases parseSeq fuel rest <;> rfl

end Regex
