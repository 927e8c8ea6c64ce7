import Helmr.Archive.Exclude

/-!
# Archives — what exclude patterns mean

`Glob` is what a pattern says. The code turns a pattern into parts (`lex`), whose expressions match what
`Accepts` says; `compile_globPatternSource` is the parse and `matches_iff_accepts` the match. `Accepts.glob` and
`Glob.accepts` are the two directions for ASCII patterns: `.` does not match a newline, so a pattern with `**`
means what it says on paths without one. `plain_of_agrees` is the converse, that only ASCII patterns without `**`
mean what they say on every path: `Glob.shrink` finds a path for a byte of a longer character, which becomes a
character of its own, and `exists_glob` one with more newlines than the expression can match.
-/

namespace Helmr.Archive

open Wire Regex

/-- What a glob matches, read from left to right. -/
inductive Glob : Bytes → List Char → Prop
  | nil : Glob [] []
  | dirs {pattern : Bytes} {path dirs : List Char} (hdirs : dirs = [] ∨ ∃ d, dirs = d ++ ['/'])
      (h : Glob pattern path) : Glob (42 :: 42 :: 47 :: pattern) (dirs ++ path)
  | text {pattern : Bytes} {path text : List Char} (hpattern : pattern.head? ≠ some 47)
      (h : Glob pattern path) : Glob (42 :: 42 :: pattern) (text ++ path)
  | name {pattern : Bytes} {path name : List Char} (hpattern : pattern.head? ≠ some 42) (hname : '/' ∉ name)
      (h : Glob pattern path) : Glob (42 :: pattern) (name ++ path)
  | one {pattern : Bytes} {path : List Char} {c : Char} (hc : c ≠ '/')
      (h : Glob pattern path) : Glob (63 :: pattern) (c :: path)
  | literal {pattern : Bytes} {path : List Char} {c : Char} (hstar : c ≠ '*') (hmark : c ≠ '?')
      (h : Glob pattern path) : Glob (String.utf8EncodeChar c ++ pattern) (c :: path)

/-- ASCII without `**`. -/
def Plain (pattern : Bytes) : Prop := (∀ b ∈ pattern, b.toNat < 128) ∧ ¬[42, 42] <:+: pattern

/-- ASCII, and without `**` where the path has a newline. -/
def Faithful (pattern : Bytes) (path : List Char) : Prop :=
  (∀ b ∈ pattern, b.toNat < 128) ∧ ([42, 42] <:+: pattern → '\n' ∉ path)

theorem Plain.faithful {pattern : Bytes} (h : Plain pattern) (path : List Char) : Faithful pattern path :=
  ⟨h.1, fun hin => absurd hin h.2⟩

/-! ## The parts of a pattern -/

inductive Part
  | dirs
  | text
  | name
  | one
  | literal (b : UInt8)

def lex : Bytes → List Part
  | 42 :: 42 :: 47 :: rest => .dirs :: lex rest
  | 42 :: 42 :: rest => .text :: lex rest
  | 42 :: rest => .name :: lex rest
  | 63 :: rest => .one :: lex rest
  | b :: rest => .literal b :: lex rest
  | [] => []

def Part.source : Part → List Char
  | dirs => ['(', '?', ':', '.', '*', '/', ')', '?']
  | text => ['.', '*']
  | name => ['[', '^', '/', ']', '*']
  | one => ['[', '^', '/', ']']
  | literal b => quoteMeta [charOf b]

def Part.re : Part → Re Char
  | dirs => .opt (.seq (.star (.atom (· ≠ '\n'))) (.seq (.atom (· = '/')) .empty))
  | text => .star (.atom (· ≠ '\n'))
  | name => .star (.atom (· ≠ '/'))
  | one => .atom (· ≠ '/')
  | literal b => .atom (· = charOf b)

/-- What the expression of a part matches. -/
def Part.Fits : Part → List Char → Prop
  | dirs, w => w = [] ∨ ∃ d, w = d ++ ['/'] ∧ '\n' ∉ d
  | text, w => '\n' ∉ w
  | name, w => '/' ∉ w
  | one, w => ∃ c, w = [c] ∧ c ≠ '/'
  | literal b, w => w = [charOf b]

def Accepts : List Part → List Char → Prop
  | [], path => path = []
  | p :: ps, path => ∃ w tail, path = w ++ tail ∧ p.Fits w ∧ Accepts ps tail

theorem globParts_eq (pattern : Bytes) : globParts pattern = (lex pattern).flatMap Part.source := by
  induction pattern using globParts.induct with
  | case1 rest ih => rw [globParts, lex, List.flatMap_cons, ih]; rfl
  | case2 rest h ih => rw [globParts.eq_2 _ h, lex.eq_2 _ h, List.flatMap_cons, ih]; rfl
  | case3 rest h h' ih => rw [globParts.eq_3 _ h h', lex.eq_3 _ h h', List.flatMap_cons, ih]; rfl
  | case4 rest ih => rw [globParts, lex, List.flatMap_cons, ih]; rfl
  | case5 b rest h h' hstar hmark ih =>
    rw [globParts.eq_5 _ _ h h' hstar hmark, lex.eq_5 _ _ h h' hstar hmark, List.flatMap_cons, ih]
    rfl
  | case6 => rfl

/-! ## The expression compiles -/

/-- The expression of some parts, up to the end of the text. -/
def partsRe (ps : List Part) : Re Char := ps.foldr (fun p re => .seq p.re re) (.seq .endText .empty)

theorem source_head (ps : List Part) : (ps.flatMap Part.source ++ ['$']).head?.any isRepeat = false := by
  cases ps with
  | nil => rfl
  | cons p ps =>
    cases p with
    | literal b =>
      show ((quoteMeta [charOf b] ++ _) ++ _).head?.any isRepeat = false
      unfold quoteMeta
      rw [List.flatMap_singleton]
      split_ifs with hmeta
      · rfl
      · show isRepeat (charOf b) = false
        exact Bool.eq_false_iff.mpr fun hrepeat => hmeta (mem_metas_of_isRepeat hrepeat)
    | _ => rfl

variable {p : Part} {ps : List Part} {pattern : Bytes} {path : List Char} {b : UInt8} {w : List Char}

theorem parseSeq_part {fuel : Nat} {rest : List Char} (hfuel : p.source.length ≤ fuel)
    (hrest : rest.head?.any isRepeat = false) :
    parseSeq (fuel + 1) (p.source ++ rest) = (parseSeq fuel rest).map fun r => (.seq p.re r.1, r.2) := by
  cases p with
  | dirs =>
    obtain ⟨n, rfl⟩ : ∃ n, fuel = n + 3 := ⟨fuel - 3, by simp [Part.source] at hfuel; omega⟩
    apply parseSeq_repeat (by decide) false _ hrest
    rfl
  | text => exact parseSeq_repeat (by decide) true rfl hrest
  | name => exact parseSeq_repeat (by decide) true rfl hrest
  | one => exact parseSeq_atom (by decide) rfl hrest
  | literal b =>
    show parseSeq (fuel + 1) (quoteMeta [charOf b] ++ rest) = _
    unfold quoteMeta
    rw [List.flatMap_singleton]
    split_ifs with hmeta
    · exact parseSeq_atom (by decide) (parseAtom_escape hmeta rest) hrest
    · exact parseSeq_atom (fun h => hmeta (h ▸ by decide)) (parseAtom_literal hmeta rest) hrest

theorem parseSeq_parts {fuel : Nat} (hfuel : (ps.flatMap Part.source).length + 2 ≤ fuel) :
    parseSeq fuel (ps.flatMap Part.source ++ ['$']) = some (partsRe ps, []) := by
  induction ps generalizing fuel with
  | nil =>
    obtain ⟨n, rfl⟩ : ∃ n, fuel = n + 2 := ⟨fuel - 2, by simp at hfuel; omega⟩
    rfl
  | cons p ps ih =>
    rw [List.flatMap_cons, List.length_append] at hfuel
    have hsome : 1 ≤ p.source.length := by
      cases p with
      | literal b =>
        show 1 ≤ (quoteMeta [charOf b]).length
        unfold quoteMeta
        rw [List.flatMap_singleton]
        split_ifs <;> simp
      | _ => exact Nat.succ_le_succ (Nat.zero_le _)
    obtain ⟨n, rfl⟩ : ∃ n, fuel = n + 1 := ⟨fuel - 1, by omega⟩
    rw [List.flatMap_cons, List.append_assoc, parseSeq_part (by omega) (source_head ps), ih (by omega)]
    rfl

/-- **Every pattern compiles.** -/
theorem compile_globPatternSource (pattern : Bytes) :
    compile (globPatternSource pattern) = some (.seq .beginText (partsRe (lex pattern))) := by
  unfold compile globPatternSource
  rw [globParts_eq, parseSeq_atom (by decide) rfl (source_head (lex pattern)), parseSeq_parts (by simp)]
  rfl

/-! ## What the expression matches -/

theorem Part.reaches_iff {s t : Place Char} :
    p.re.Reaches s t ↔ ∃ w, s.rest = w ++ t.rest ∧ p.Fits w ∧ t.atStart = (s.atStart && w.isEmpty) := by
  have hall (c : Char) (run : List Char) : (∀ d ∈ run, decide (d ≠ c) = true) ↔ c ∉ run := by
    simp only [decide_eq_true_eq, ne_eq]
    exact ⟨fun h hc => h c hc rfl, fun h d hd heq => h (heq ▸ hd)⟩
  cases p with
  | dirs =>
    constructor
    -- nothing, or a run within one line that ends at a slash
    · rintro (rfl | ⟨u, hrun, _, hslash, rfl⟩)
      · exact ⟨[], rfl, .inl rfl, by simp⟩
      · obtain ⟨run, hrest, hline, -⟩ := Re.reaches_star_atom.mp hrun
        obtain ⟨c, hu, hc, hflag⟩ := hslash
        have hslash : c = '/' := of_decide_eq_true hc
        subst hslash
        refine ⟨run ++ ['/'], ?_, .inr ⟨run, rfl, (hall '\n' run).mp hline⟩, ?_⟩
        · rw [hrest, hu, List.append_assoc, List.singleton_append]
        · rw [hflag]
          simp
    · rintro ⟨w, hrest, rfl | ⟨run, rfl, hline⟩, hflag⟩
      · left
        rcases s with ⟨b, rest⟩
        rcases t with ⟨b', rest'⟩
        simp_all
      · right
        refine ⟨⟨s.atStart && run.isEmpty, '/' :: t.rest⟩, Re.reaches_star_atom.mpr ⟨run, ?_, ?_, rfl⟩, t,
          ⟨'/', rfl, rfl, ?_⟩, rfl⟩
        · rw [hrest, List.append_assoc, List.singleton_append]
        · exact (hall '\n' run).mpr hline
        · rw [hflag]
          simp
  | text =>
    refine Re.reaches_star_atom.trans (exists_congr fun w => ?_)
    rw [hall]
    rfl
  | name =>
    refine Re.reaches_star_atom.trans (exists_congr fun w => ?_)
    rw [hall]
    rfl
  | one =>
    constructor
    · rintro ⟨c, hrest, hc, hflag⟩
      exact ⟨[c], hrest, ⟨c, rfl, of_decide_eq_true hc⟩, by rw [hflag]; simp⟩
    · rintro ⟨_, hrest, ⟨c, rfl, hc⟩, hflag⟩
      exact ⟨c, hrest, decide_eq_true hc, by rw [hflag]; simp⟩
  | literal b =>
    constructor
    · rintro ⟨c, hrest, hc, hflag⟩
      have hchar : c = charOf b := of_decide_eq_true hc
      subst hchar
      exact ⟨[charOf b], hrest, rfl, by rw [hflag]; simp⟩
    · rintro ⟨_, hrest, rfl, hflag⟩
      exact ⟨charOf b, hrest, decide_eq_true rfl, by rw [hflag]; simp⟩

/-- The parts of a pattern one after the other, wherever they start. -/
theorem reaches_partsRe {s : Place Char} : (∃ t, (partsRe ps).Reaches s t) ↔ Accepts ps s.rest := by
  induction ps generalizing s with
  | nil =>
    constructor
    · rintro ⟨_, _, ⟨rfl, hend⟩, rfl⟩
      exact hend
    · intro hend
      exact ⟨s, s, ⟨rfl, hend⟩, rfl⟩
  | cons p ps ih =>
    constructor
    · rintro ⟨t, u, hp, hps⟩
      obtain ⟨w, hrest, hfits, -⟩ := Part.reaches_iff.mp hp
      exact ⟨w, u.rest, hrest, hfits, ih.mp ⟨t, hps⟩⟩
    · rintro ⟨w, tail, hrest, hfits, htail⟩
      obtain ⟨t, ht⟩ := ih.mpr (show Accepts ps (Place.mk (s.atStart && w.isEmpty) tail).rest from htail)
      exact ⟨t, ⟨s.atStart && w.isEmpty, tail⟩, Part.reaches_iff.mpr ⟨w, hrest, hfits, rfl⟩, ht⟩

theorem matches_iff_accepts :
    (Re.seq .beginText (partsRe (lex pattern))).Matches path ↔ Accepts (lex pattern) path :=
  Re.matches_beginText.trans reaches_partsRe

/-! ## Faithful patterns -/

theorem head?_ne_some : pattern.head? ≠ some b ↔ ∀ rest, pattern = b :: rest → False := by
  cases pattern with
  | nil => simp
  | cons c pattern =>
    simp only [List.head?_cons, ne_eq, Option.some.injEq, List.cons.injEq]
    exact ⟨fun hne _ heq => hne heq.1, fun hall heq => hall pattern ⟨heq, rfl⟩⟩

theorem lex_text (h : pattern.head? ≠ some 47) : lex (42 :: 42 :: pattern) = .text :: lex pattern :=
  lex.eq_2 _ (head?_ne_some.mp h)

theorem lex_name (h : pattern.head? ≠ some 42) : lex (42 :: pattern) = .name :: lex pattern :=
  lex.eq_3 _ (fun _ => head?_ne_some.mp h _) (head?_ne_some.mp h)

theorem lex_literal (hstar : b ≠ 42) (hmark : b ≠ 63) (rest : Bytes) :
    lex (b :: rest) = .literal b :: lex rest :=
  lex.eq_5 b rest (fun _ h => absurd h hstar) (fun _ h => absurd h hstar) hstar hmark

/-- An ASCII character of a pattern is one literal. -/
theorem lex_encode {c : Char} (hc : c.toNat < 128) (hstar : c ≠ '*') (hmark : c ≠ '?') (rest : Bytes) :
    lex (String.utf8EncodeChar c ++ rest) = .literal (UInt8.ofNat c.toNat) :: lex rest := by
  have hne (d : Char) (hcd : c ≠ d) (hd : d.toNat < 128) : UInt8.ofNat c.toNat ≠ UInt8.ofNat d.toNat := by
    intro heq
    have hnat := congrArg UInt8.toNat heq
    rw [UInt8.toNat_ofNat_of_lt' (by unfold UInt8.size; omega),
      UInt8.toNat_ofNat_of_lt' (by unfold UInt8.size; omega)] at hnat
    exact hcd (Char.toNat_inj.mp hnat)
  rw [encode_ascii hc, List.singleton_append]
  exact lex_literal (hne '*' hstar (by decide)) (hne '?' hmark (by decide)) rest

theorem Glob.literal_byte (hb : b.toNat < 128) (hstar : b ≠ 42) (hmark : b ≠ 63) (h : Glob pattern path) :
    Glob (b :: pattern) (charOf b :: path) := by
  have hne (c : UInt8) (hc : b ≠ c) : charOf b ≠ charOf c := by
    intro heq
    apply hc
    rw [← UInt8.toNat_inj, ← toNat_charOf b, ← toNat_charOf c, heq]
  have hglob : Glob (String.utf8EncodeChar (charOf b) ++ pattern) (charOf b :: path) :=
    .literal (hne 42 hstar) (hne 63 hmark) h
  rwa [encode_charOf hb] at hglob

/-- What the expression of an ASCII pattern matches, the glob does. -/
theorem Accepts.glob (hascii : ∀ b ∈ pattern, b.toNat < 128) (h : Accepts (lex pattern) path) :
    Glob pattern path := by
  induction pattern using lex.induct generalizing path with
  | case1 rest ih =>
    rw [lex] at h
    obtain ⟨w, tail, rfl, hw, htail⟩ := h
    exact .dirs (hw.imp_right fun ⟨d, hd, _⟩ => ⟨d, hd⟩) (ih (fun b hb => hascii b (by simp [hb])) htail)
  | case2 rest hslash ih =>
    rw [lex.eq_2 _ hslash] at h
    obtain ⟨w, tail, rfl, -, htail⟩ := h
    exact .text (head?_ne_some.mpr hslash) (ih (fun b hb => hascii b (by simp [hb])) htail)
  | case3 rest hslash hstar ih =>
    rw [lex.eq_3 _ hslash hstar] at h
    obtain ⟨w, tail, rfl, hw, htail⟩ := h
    exact .name (head?_ne_some.mpr hstar) hw (ih (List.forall_mem_cons.mp hascii).2 htail)
  | case4 rest ih =>
    rw [lex] at h
    obtain ⟨_, tail, rfl, ⟨c, rfl, hc⟩, htail⟩ := h
    exact .one hc (ih (List.forall_mem_cons.mp hascii).2 htail)
  | case5 b rest h₁ h₂ hstar hmark ih =>
    rw [lex_literal hstar hmark] at h
    obtain ⟨_, tail, rfl, rfl, htail⟩ := h
    obtain ⟨hb, hrest⟩ := List.forall_mem_cons.mp hascii
    exact (ih hrest htail).literal_byte hb hstar hmark
  | case6 =>
    rw [show path = [] from h]
    exact .nil

/-- What a faithful glob matches, its expression does. -/
theorem Glob.accepts (h : Glob pattern path) (hfaithful : Faithful pattern path) : Accepts (lex pattern) path := by
  obtain ⟨hascii, hline⟩ := hfaithful
  -- behind the first byte, and behind what the first part matched
  have hskip {b : UInt8} {bytes : Bytes} {w tail : List Char} (hb : [42, 42] <:+: b :: bytes → '\n' ∉ w ++ tail)
      (hin : [42, 42] <:+: bytes) : '\n' ∉ tail :=
    fun hmem => hb (hin.trans (List.suffix_cons b bytes).isInfix) (List.mem_append_right w hmem)
  induction h with
  | nil => rfl
  | @dirs pattern path dirs hdirs _ ih =>
    have hnone := hline ⟨[], 47 :: pattern, rfl⟩
    rw [List.mem_append, not_or] at hnone
    rw [lex]
    refine ⟨dirs, path, rfl, hdirs.imp_right ?_, ih (fun b hb => hascii b (by simp [hb])) fun _ => hnone.2⟩
    rintro ⟨d, rfl⟩
    exact ⟨d, rfl, fun hmem => hnone.1 (List.mem_append_left _ hmem)⟩
  | @text pattern path text hpattern _ ih =>
    have hnone := hline ⟨[], pattern, rfl⟩
    rw [List.mem_append, not_or] at hnone
    rw [lex_text hpattern]
    exact ⟨text, path, rfl, hnone.1, ih (fun b hb => hascii b (by simp [hb])) fun _ => hnone.2⟩
  | @name pattern path name hpattern hname _ ih =>
    rw [lex_name hpattern]
    exact ⟨name, path, rfl, hname, ih (List.forall_mem_cons.mp hascii).2 (hskip hline)⟩
  | @one pattern path c hc _ ih =>
    rw [lex]
    exact ⟨[c], path, rfl, ⟨c, rfl, hc⟩, ih (List.forall_mem_cons.mp hascii).2 (hskip (w := [c]) hline)⟩
  | @literal pattern path c hstar hmark _ ih =>
    obtain ⟨hbytes, hrest⟩ := List.forall_mem_append.mp hascii
    have hc := ascii_of_encode hbytes
    rw [lex_encode hc hstar hmark]
    rw [encode_ascii hc, List.singleton_append] at hline
    exact ⟨[c], path, rfl, congrArg (· :: []) (charOf_ofNat hc).symm, ih hrest (hskip (w := [c]) hline)⟩

theorem accepts_iff_glob (h : Faithful pattern path) : Accepts (lex pattern) path ↔ Glob pattern path :=
  ⟨Accepts.glob h.1, fun hglob => hglob.accepts h⟩

/-! ## Longer characters -/

theorem lex_high {bytes : Bytes} (h : ∀ b ∈ bytes, 128 ≤ b.toNat) (rest : Bytes) :
    lex (bytes ++ rest) = bytes.map Part.literal ++ lex rest := by
  induction bytes with
  | nil => rfl
  | cons b bytes ih =>
    obtain ⟨hb, hbytes⟩ := List.forall_mem_cons.mp h
    have hne (c : UInt8) (hc : c.toNat < 128) : b ≠ c := by
      rintro rfl
      omega
    rw [List.cons_append, lex_literal (hne 42 (by decide)) (hne 63 (by decide)), ih hbytes]
    rfl

/-- The characters that the expression asks for one by one. -/
def fixed : List Part → Nat
  | [] => 0
  | .one :: ps => fixed ps + 1
  | .literal _ :: ps => fixed ps + 1
  | _ :: ps => fixed ps

theorem fixed_literals (bytes : Bytes) (ps : List Part) :
    fixed (bytes.map Part.literal ++ ps) = bytes.length + fixed ps := by
  induction bytes with
  | nil => simp
  | cons b bytes ih =>
    show fixed (bytes.map Part.literal ++ ps) + 1 = _
    rw [ih, List.length_cons]
    omega

theorem fixed_le (h : Accepts ps path) : fixed ps ≤ path.length := by
  induction ps generalizing path with
  | nil => exact Nat.zero_le _
  | cons p ps ih =>
    obtain ⟨w, tail, rfl, hfits, htail⟩ := h
    have hrest := ih htail
    rw [List.length_append]
    cases p with
    | one =>
      obtain ⟨c, rfl, -⟩ := hfits
      rw [List.length_singleton]
      show fixed ps + 1 ≤ _
      omega
    | literal b =>
      rw [show w = [charOf b] from hfits, List.length_singleton]
      show fixed ps + 1 ≤ _
      omega
    | _ => exact hrest.trans (Nat.le_add_left _ _)

/-- Something is accepted. -/
theorem exists_accepts (ps : List Part) : ∃ path, Accepts ps path := by
  induction ps with
  | nil => exact ⟨[], rfl⟩
  | cons p ps ih =>
    obtain ⟨tail, htail⟩ := ih
    cases p with
    | dirs => exact ⟨tail, [], tail, rfl, .inl rfl, htail⟩
    | text => exact ⟨tail, [], tail, rfl, List.not_mem_nil, htail⟩
    | name => exact ⟨tail, [], tail, rfl, List.not_mem_nil, htail⟩
    | one => exact ⟨'x' :: tail, ['x'], tail, rfl, ⟨'x', rfl, by decide⟩, htail⟩
    | literal b => exact ⟨charOf b :: tail, [charOf b], tail, rfl, rfl, htail⟩

/-- What a glob matches can be cut down to the characters it names, and a longer character is one of them where
the expression asks for one for each byte. -/
theorem Glob.shrink (h : Glob pattern path) :
    ∃ short, Glob pattern short ∧ short.length ≤ fixed (lex pattern) ∧
      ((∃ b ∈ pattern, 128 ≤ b.toNat) → short.length < fixed (lex pattern)) := by
  have hskip {b : UInt8} {bytes : Bytes} (hb : b.toNat < 128) (hmem : ∃ c ∈ b :: bytes, 128 ≤ c.toNat) :
      ∃ c ∈ bytes, 128 ≤ c.toNat := by
    obtain ⟨c, hc, hhigh⟩ := hmem
    obtain rfl | hc := List.mem_cons.mp hc
    · omega
    · exact ⟨c, hc, hhigh⟩
  induction h with
  | nil => exact ⟨[], .nil, le_refl _, fun ⟨_, hb, _⟩ => absurd hb List.not_mem_nil⟩
  | @dirs pattern _ _ _ _ ih =>
    obtain ⟨short, hshort, hle, hlt⟩ := ih
    rw [lex]
    exact ⟨[] ++ short, .dirs (.inl rfl) hshort, hle,
      fun hhigh => hlt (hskip (by decide) (hskip (by decide) (hskip (by decide) hhigh)))⟩
  | @text pattern _ _ hpattern _ ih =>
    obtain ⟨short, hshort, hle, hlt⟩ := ih
    rw [lex_text hpattern]
    exact ⟨[] ++ short, .text hpattern hshort, hle,
      fun hhigh => hlt (hskip (by decide) (hskip (by decide) hhigh))⟩
  | @name pattern _ _ hpattern _ _ ih =>
    obtain ⟨short, hshort, hle, hlt⟩ := ih
    rw [lex_name hpattern]
    exact ⟨[] ++ short, .name hpattern List.not_mem_nil hshort, hle, fun hhigh => hlt (hskip (by decide) hhigh)⟩
  | @one pattern _ _ _ _ ih =>
    obtain ⟨short, hshort, hle, hlt⟩ := ih
    rw [lex]
    exact ⟨'x' :: short, .one (by decide) hshort, Nat.succ_le_succ hle,
      fun hhigh => Nat.succ_lt_succ (hlt (hskip (by decide) hhigh))⟩
  | @literal pattern _ c hstar hmark _ ih =>
    obtain ⟨short, hshort, hle, hlt⟩ := ih
    refine ⟨c :: short, .literal hstar hmark hshort, ?_⟩
    by_cases hc : c.toNat < 128
    · rw [lex_encode hc hstar hmark, encode_ascii hc]
      refine ⟨Nat.succ_le_succ hle, fun hhigh => Nat.succ_lt_succ (hlt (hskip ?_ hhigh))⟩
      rw [UInt8.toNat_ofNat_of_lt' (by unfold UInt8.size; omega)]
      exact hc
    · -- one character of the path, several of the expression
      obtain ⟨hlength, hbytes⟩ := encode_high (not_lt.mp hc)
      rw [lex_high hbytes, fixed_literals, List.length_cons]
      exact ⟨by omega, fun _ => by omega⟩

/-! ## Newlines -/

/-- Newlines at the end of a path element. -/
def breaks : List Char → Nat
  | [] => 0
  | c :: rest => (if c = '\n' ∧ rest.head? = some '/' then 1 else 0) + breaks rest

theorem breaks_cons_le (c : Char) (rest : List Char) : breaks (c :: rest) ≤ 1 + breaks rest := by
  rw [breaks]
  split_ifs <;> omega

theorem le_breaks_append (w rest : List Char) : breaks rest ≤ breaks (w ++ rest) := by
  induction w with
  | nil => exact le_refl _
  | cons c w ih => exact ih.trans (Nat.le_add_left _ _)

theorem breaks_of_newline_notMem (h : '\n' ∉ w) (rest : List Char) : breaks (w ++ rest) = breaks rest := by
  induction w with
  | nil => rfl
  | cons c w ih =>
    rw [List.mem_cons, not_or] at h
    have hc : ¬(c = '\n' ∧ (w ++ rest).head? = some '/') := fun hc => h.1 hc.1.symm
    rw [List.cons_append, breaks, if_neg hc, ih h.2, Nat.zero_add]

theorem breaks_of_slash_notMem (h : '/' ∉ w) (rest : List Char) : breaks (w ++ rest) ≤ 1 + breaks rest := by
  induction w with
  | nil => exact Nat.le_add_left _ _
  | cons c w ih =>
    cases w with
    | nil => exact breaks_cons_le c rest
    | cons d w =>
      have hrest := List.not_mem_of_not_mem_cons h
      have hc : ¬(c = '\n' ∧ (d :: w ++ rest).head? = some '/') := by
        rintro ⟨-, hd⟩
        cases hd
        exact hrest List.mem_cons_self
      rw [List.cons_append, breaks, if_neg hc, Nat.zero_add]
      exact ih hrest

theorem Part.Fits.breaks_le (h : p.Fits w) (tail : List Char) : breaks (w ++ tail) ≤ 1 + breaks tail := by
  cases p with
  | dirs =>
    obtain rfl | ⟨d, rfl, hline⟩ := h
    · exact Nat.le_add_left _ _
    · rw [breaks_of_newline_notMem (by simp [hline])]
      exact Nat.le_add_left _ _
  | text =>
    rw [breaks_of_newline_notMem h]
    exact Nat.le_add_left _ _
  | name => exact breaks_of_slash_notMem h tail
  | one =>
    obtain ⟨c, rfl, -⟩ := h
    exact breaks_cons_le c tail
  | literal b =>
    rw [show w = [charOf b] from h]
    exact breaks_cons_le _ tail

theorem breaks_le_of_accepts (h : Accepts ps path) : breaks path ≤ ps.length := by
  induction ps generalizing path with
  | nil =>
    rw [show path = [] from h]
    exact le_refl _
  | cons p ps ih =>
    obtain ⟨w, tail, rfl, hfits, htail⟩ := h
    have hstep := hfits.breaks_le tail
    have hrest := ih htail
    rw [List.length_cons]
    omega

/-- Directories that are called newline. -/
def newlines (n : Nat) : List Char := (List.replicate n ['\n', '/']).flatten

theorem le_breaks_newlines (n : Nat) (rest : List Char) : n ≤ breaks (newlines n ++ rest) := by
  induction n with
  | zero => exact Nat.zero_le _
  | succ n ih =>
    have hsplit : newlines (n + 1) ++ rest = '\n' :: '/' :: (newlines n ++ rest) := rfl
    have hslash := le_breaks_append ['/'] (newlines n ++ rest)
    rw [hsplit, breaks, if_pos ⟨rfl, rfl⟩]
    rw [List.singleton_append] at hslash
    omega

/-- A glob of ASCII characters matches something, with as many newlines as wanted where it has `**`. -/
theorem exists_glob (hascii : ∀ b ∈ pattern, b.toNat < 128) (n : Nat) :
    ∃ path, Glob pattern path ∧ ([42, 42] <:+: pattern → n ≤ breaks path) := by
  induction pattern using lex.induct with
  | case1 rest ih =>
    obtain ⟨tail, htail, -⟩ := ih fun b hb => hascii b (by simp [hb])
    refine ⟨newlines n ++ ['/'] ++ tail, .dirs (.inr ⟨_, rfl⟩) htail, fun _ => ?_⟩
    rw [List.append_assoc]
    exact le_breaks_newlines n _
  | case2 rest h ih =>
    obtain ⟨tail, htail, -⟩ := ih fun b hb => hascii b (by simp [hb])
    exact ⟨newlines n ++ tail, .text (head?_ne_some.mpr h) htail, fun _ => le_breaks_newlines n tail⟩
  | case3 rest h h' ih =>
    obtain ⟨tail, htail, hbreaks⟩ := ih fun b hb => hascii b (List.mem_cons_of_mem _ hb)
    refine ⟨[] ++ tail, .name (head?_ne_some.mpr h') List.not_mem_nil htail, fun hin => ?_⟩
    obtain ⟨rest', hrest⟩ | hlater := List.infix_cons_iff.mp hin
    · exact absurd (List.cons.inj hrest).2.symm (h' rest')
    · exact hbreaks hlater
  | case4 rest ih =>
    obtain ⟨tail, htail, hbreaks⟩ := ih fun b hb => hascii b (List.mem_cons_of_mem _ hb)
    refine ⟨'x' :: tail, .one (by decide) htail, fun hin => ?_⟩
    obtain ⟨_, hstart⟩ | hlater := List.infix_cons_iff.mp hin
    · cases hstart
    · exact (hbreaks hlater).trans (le_breaks_append ['x'] tail)
  | case5 b rest h h' hstar hmark ih =>
    obtain ⟨tail, htail, hbreaks⟩ := ih fun b hb => hascii b (List.mem_cons_of_mem _ hb)
    refine ⟨charOf b :: tail, htail.literal_byte (hascii b List.mem_cons_self) hstar hmark, fun hin => ?_⟩
    obtain ⟨_, hstart⟩ | hlater := List.infix_cons_iff.mp hin
    · exact absurd (List.cons.inj hstart).1.symm hstar
    · exact (hbreaks hlater).trans (le_breaks_append [charOf b] tail)
  | case6 => exact ⟨[], .nil, fun hin => absurd hin (by decide)⟩

/-! ## Main results -/

/-- Where the expression agrees with the glob on every path, the pattern is plain. -/
theorem plain_of_agrees (h : ∀ path, Accepts (lex pattern) path ↔ Glob pattern path) : Plain pattern := by
  have hascii : ∀ b ∈ pattern, b.toNat < 128 := by
    by_contra hsome
    push Not at hsome
    obtain ⟨path, hpath⟩ := exists_accepts (lex pattern)
    obtain ⟨short, hshort, -, hlt⟩ := ((h path).mp hpath).shrink
    have hle := fixed_le ((h short).mpr hshort)
    have hless := hlt hsome
    omega
  refine ⟨hascii, fun hin => ?_⟩
  obtain ⟨path, hpath, hbreaks⟩ := exists_glob hascii ((lex pattern).length + 1)
  have hle := breaks_le_of_accepts ((h path).mpr hpath)
  have hmore := hbreaks hin
  omega

/-- **What is left out of an archive.** The patterns are ASCII, and without `**` if the path has a newline. -/
theorem excludedRelativePath_eq_true {patterns : List Bytes} {rel : List Char}
    (hfaithful : ∀ p ∈ patterns, Faithful (trimSpace p) rel) :
    ∃ matchers, compileExcludeMatchers patterns = .ok matchers ∧
      (excludedRelativePath rel matchers = true ↔ ∃ p ∈ patterns, trimSpace p ≠ [] ∧
        (Glob (trimSpace p) rel ∨ rel.getLast? ≠ some '/' ∧ Glob (trimSpace p) (rel ++ ['/']))) := by
  induction patterns with
  | nil => exact ⟨[], rfl, by simp [excludedRelativePath]⟩
  | cons p patterns ih =>
    obtain ⟨⟨hascii, hline⟩, hrest⟩ := List.forall_mem_cons.mp hfaithful
    obtain ⟨matchers, hmatchers, hexcluded⟩ := ih hrest
    rw [compileExcludeMatchers]
    by_cases hnil : trimSpace p = []
    · refine ⟨matchers, by rw [if_pos hnil, hmatchers], ?_⟩
      rw [hexcluded, List.exists_mem_cons_iff]
      simp [hnil]
    · rw [if_neg hnil, compile_globPatternSource, hmatchers]
      refine ⟨_, rfl, ?_⟩
      have hmatch {path : List Char} (hpath : '\n' ∉ rel → '\n' ∉ path) :
          (Re.seq .beginText (partsRe (lex (trimSpace p)))).matchString path = true ↔ Glob (trimSpace p) path :=
        (Re.matchString_eq_true.trans matches_iff_accepts).trans (accepts_iff_glob ⟨hascii, hpath ∘ hline⟩)
      have hslash : '\n' ∉ rel → '\n' ∉ rel ++ ['/'] := by simp
      rw [List.exists_mem_cons_iff, ← hexcluded]
      unfold excludedRelativePath
      rw [List.any_cons, Bool.or_eq_true]
      refine or_congr ?_ Iff.rfl
      by_cases hlast : rel.getLast? = some '/' <;> simp [hlast, hmatch id, hmatch hslash, hnil]

/-- A directory is left out by the last of three patterns, which matches it with the slash behind it. -/
theorem excludedRelativePath_of_mark : ∃ matchers,
    compileExcludeMatchers [ascii "*.tmp", ascii " ", ascii "**/b/"] = .ok matchers ∧
      excludedRelativePath ['a', '/', 'b'] matchers = true := by
  have hfaithful : ∀ p ∈ [ascii "*.tmp", ascii " ", ascii "**/b/"], Faithful (trimSpace p) ['a', '/', 'b'] := by
    unfold Faithful
    decide +kernel
  obtain ⟨matchers, hcompiled, hexcluded⟩ := excludedRelativePath_eq_true hfaithful
  refine ⟨matchers, hcompiled, hexcluded.mpr ⟨ascii "**/b/", by simp, by decide, .inr ⟨by decide, ?_⟩⟩⟩
  rw [show trimSpace (ascii "**/b/") = [42, 42, 47, 98, 47] by decide]
  have hslash : Glob [47] ['/'] := Glob.nil.literal_byte (by decide) (by decide) (by decide)
  have hname : Glob [98, 47] ['b', '/'] := hslash.literal_byte (by decide) (by decide) (by decide)
  exact @Glob.dirs _ _ ['a', '/'] (.inr ⟨['a'], rfl⟩) hname

/-- **The expression always compiles.** It means what the glob says on every path exactly for plain patterns, and
for every ASCII pattern on the paths without a newline. -/
theorem globPatternSource_agrees_iff (pattern : Bytes) :
    ∃ re, compile (globPatternSource pattern) = some re ∧
      ((∀ path, re.matchString path = true ↔ Glob pattern path) ↔ Plain pattern) ∧
      ((∀ b ∈ pattern, b.toNat < 128) → ∀ path, '\n' ∉ path → (re.matchString path = true ↔ Glob pattern path)) := by
  have hmatch (path : List Char) :
      (Re.seq .beginText (partsRe (lex pattern))).matchString path = true ↔ Accepts (lex pattern) path :=
    Re.matchString_eq_true.trans matches_iff_accepts
  refine ⟨_, compile_globPatternSource pattern, ⟨fun h => ?_, fun hplain path => ?_⟩, fun hascii path hpath => ?_⟩
  · exact plain_of_agrees fun path => (hmatch path).symm.trans (h path)
  · exact (hmatch path).trans (accepts_iff_glob (hplain.faithful path))
  · exact (hmatch path).trans (accepts_iff_glob ⟨hascii, fun _ => hpath⟩)

/-- The pattern `é` does not match the path `é` but `Ã©`, and `**` does not match a newline. -/
theorem globPatternSource_mistakes :
    (∃ re, compile (globPatternSource [0xC3, 0xA9]) = some re ∧
      Glob [0xC3, 0xA9] ['é'] ∧ re.matchString ['é'] = false ∧
      ¬Glob [0xC3, 0xA9] ['Ã', '©'] ∧ re.matchString ['Ã', '©'] = true) ∧
    ∃ re, compile (globPatternSource (ascii "**")) = some re ∧
      Glob (ascii "**") ['\n'] ∧ re.matchString ['\n'] = false := by
  refine ⟨⟨_, compile_globPatternSource _, .literal (c := 'é') (by decide) (by decide) .nil, by decide, ?_, by decide⟩,
    ⟨_, compile_globPatternSource _, @Glob.text [] [] ['\n'] (by decide) .nil, by decide⟩⟩
  intro h
  generalize hbytes : ([0xC3, 0xA9] : Bytes) = bytes at h
  generalize hpath : ['Ã', '©'] = path at h
  cases h with
  | literal _ _ _ =>
    cases hpath
    rw [show String.utf8EncodeChar 'Ã' = [0xC3, 0x83] by decide] at hbytes
    cases hbytes
  | _ => cases hbytes

end Helmr.Archive
