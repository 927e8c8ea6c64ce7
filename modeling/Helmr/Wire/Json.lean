import Helmr.Wire.Text

/-!
# Wire — JSON arrays and objects

Decoding goes into a value: an item of an array or a member of an object updates a state, as
`encoding/json` decodes into the variable it is given. `parseSeq` is the one loop behind both
containers. `Reads item s texts s'` says that the renderings `texts` take the state from `s` to
`s'` one item after the other; `parseSeq_renderSeq` turns it into the round trip of the container.
`Spells p text a` is the round trip of a value that is decoded: there is a lemma for each kind, and
`Reads.field` is the step for a member of a struct.

`skipValue` recognises any value; it is what a decoder does with an element it has no room for.
-/

namespace Wire.Json

open Wire

variable {σ : Type}

/-! ## Whitespace and the `null` literal -/

def isSpace (c : UInt8) : Bool := c == 32 || c == 9 || c == 10 || c == 13

def skipSpace (inp : Bytes) : Bytes := inp.dropWhile isSpace

/-- The text after a leading `null`, if there is one. -/
def parseNull : Bytes → Option Bytes
  | 110 :: 117 :: 108 :: 108 :: rest => some rest
  | _ => none

/-- Decode into `old`: `null` leaves it unchanged. -/
def orNull {α : Type} (old : α) (p : Parser α) : Parser α := fun inp =>
  match parseNull inp with
  | some rest => some (old, rest)
  | none => p inp

/-! ## The container loop -/

/-- Items separated by commas, up to the closing bracket. -/
def parseItems (close : UInt8) (item : σ → Parser σ) : (fuel : Nat) → σ → Parser σ
  | 0, _, _ => none
  | fuel + 1, s, inp =>
    match item s (skipSpace inp) with
    | none => none
    | some (s', rest) =>
      match skipSpace rest with
      | [] => none
      | c :: rest' =>
        if c = 44 then parseItems close item fuel s' rest'
        else if c = close then some (s', rest')
        else none

def parseSeq (opening close : UInt8) (item : σ → Parser σ) (s : σ) : Parser σ
  | [] => none
  | c :: rest =>
    if c = opening then
      match skipSpace rest with
      | [] => none
      | d :: rest' => if d = close then some (s, rest') else parseItems close item rest.length s rest
    else none

/-- An array: the state decides what the next element is decoded into. -/
def parseArray (item : σ → Parser σ) (s : σ) : Parser σ := parseSeq 91 93 item s

/-- One member of an object: its name, a colon, and the value the name selects. -/
def parseMember (field : σ → Bytes → Parser σ) (s : σ) : Parser σ := fun inp =>
  match parseString inp with
  | none => none
  | some (name, rest) =>
    match skipSpace rest with
    | 58 :: rest' => field s name (skipSpace rest')
    | _ => none

def parseObject (field : σ → Bytes → Parser σ) (s : σ) : Parser σ :=
  parseSeq 123 125 (parseMember field) s

/-! ## Any value -/

/-- The digits, fraction and exponent of any number literal. -/
def skipNumber : Bytes → Option Bytes := fun inp =>
  let unsigned := match inp with
    | 45 :: rest => rest
    | _ => inp
  match parseNat unsigned with
  | none => none
  | some (_, rest) =>
    let fraction : Option Bytes := match rest with
      | 46 :: frac => if (frac.takeWhile isDigit).isEmpty then none else some (frac.dropWhile isDigit)
      | _ => some rest
    match fraction with
    | none => none
    | some rest' =>
      match rest' with
      | e :: exponent =>
        if e = 101 ∨ e = 69 then
          let digits := match exponent with
            | 43 :: ds => ds
            | 45 :: ds => ds
            | _ => exponent
          if (digits.takeWhile isDigit).isEmpty then none else some (digits.dropWhile isDigit)
        else some rest'
      | [] => some []

def skipValue : (fuel : Nat) → Parser Unit
  | 0, _ => none
  | fuel + 1, inp =>
    match inp with
    | 34 :: _ => (parseString inp).map fun (_, rest) => ((), rest)
    | 91 :: _ => parseArray (fun _ => skipValue fuel) () inp
    | 123 :: _ => parseObject (fun _ _ => skipValue fuel) () inp
    | 110 :: 117 :: 108 :: 108 :: rest => some ((), rest)
    | 116 :: 114 :: 117 :: 101 :: rest => some ((), rest)
    | 102 :: 97 :: 108 :: 115 :: 101 :: rest => some ((), rest)
    | _ => (skipNumber inp).map fun rest => ((), rest)

/-! ## Rendering containers -/

def joinComma : List Bytes → Bytes
  | [] => []
  | [t] => t
  | t :: ts => t ++ 44 :: joinComma ts

def renderSeq (opening close : UInt8) (texts : List Bytes) : Bytes :=
  opening :: (joinComma texts ++ [close])

def renderArray (texts : List Bytes) : Bytes := renderSeq 91 93 texts

def renderMember (name value : Bytes) : Bytes := renderString name ++ 58 :: value

def renderObject (members : List (Bytes × Bytes)) : Bytes :=
  renderSeq 123 125 (members.map fun m => renderMember m.1 m.2)

theorem length_joinComma (texts : List Bytes) :
    (joinComma texts).length = (texts.map List.length).sum + (texts.length - 1) := by
  induction texts using joinComma.induct with
  | case1 => rfl
  | case2 t => simp [joinComma]
  | case3 t ts hne ih =>
    have hpos : 0 < ts.length := List.length_pos_iff.mpr hne
    simp only [joinComma, List.length_append, List.length_cons, ih, List.map_cons, List.sum_cons]
    omega

/-! ## The container round trip -/

/-- A text that a container reads as an item: it starts with neither whitespace nor a bracket that
would close the container. -/
def Starts (text : Bytes) : Prop :=
  ∃ c t, text = c :: t ∧ isSpace c = false ∧ c ≠ 93 ∧ c ≠ 125

theorem skipSpace_of_starts {text : Bytes} (h : Starts text) (rest : Bytes) :
    skipSpace (text ++ rest) = text ++ rest := by
  obtain ⟨c, t, rfl, hc, _, _⟩ := h
  simp [skipSpace, hc]

variable {c : UInt8} {item : σ → Parser σ} {s s' : σ} {texts : List Bytes} {value rest : Bytes}

theorem skipSpace_cons (h : isSpace c = false) (rest : Bytes) : skipSpace (c :: rest) = c :: rest := by
  simp [skipSpace, h]

/-- The text spells `a` for the parser: a container reads it as an item, and before any delimiter it is
read as `a`. -/
structure Spells {α : Type} (p : Parser α) (text : Bytes) (a : α) : Prop where
  starts : Starts text
  reads : ∀ rest, Delim rest → p (text ++ rest) = some (a, rest)

/-- The items `texts` take the decoding state from `s` to `s'`, each for any delimiter after it. -/
inductive Reads (item : σ → Parser σ) : σ → List Bytes → σ → Prop where
  | nil (s : σ) : Reads item s [] s
  | cons {s s' s'' : σ} {text : Bytes} {texts : List Bytes} (starts : Starts text)
      (reads : ∀ rest, Delim rest → item s (text ++ rest) = some (s', rest))
      (tail : Reads item s' texts s'') : Reads item s (text :: texts) s''

theorem Reads.append {s'' : σ} (s' : σ) {a b : List Bytes} (ha : Reads item s a s')
    (hb : Reads item s' b s'') : Reads item s (a ++ b) s'' := by
  induction ha with
  | nil _ => exact hb
  | cons hstart hread _ ih => exact .cons hstart hread (ih hb)

/-- Elements that are appended, one after the other, to those before them. -/
theorem Reads.elements {α : Type} {item : List α → Parser (List α)} {text : α → Bytes} {xs : List α}
    (h : ∀ before x after, xs = before ++ x :: after → Spells (item before) (text x) (before ++ [x])) :
    Reads item [] (xs.map text) xs := by
  suffices hfrom : ∀ after before, xs = before ++ after → Reads item before (after.map text) xs from
    hfrom xs [] rfl
  intro after
  induction after with
  | nil =>
    intro before hxs
    rw [hxs, List.append_nil]
    exact .nil before
  | cons x after ih =>
    intro before hxs
    have hx := h before x after hxs
    exact .cons hx.starts hx.reads (ih (before ++ [x]) (by simp [hxs]))

/-- The loop reads the items it was given and stops at the closing bracket. Induction on `Reads`;
one unit of fuel is spent on each item. -/
theorem parseItems_joinComma {close : UInt8} (hclose : close = 93 ∨ close = 125) {text : Bytes}
    (h : Reads item s (text :: texts) s') :
    ∀ {fuel : Nat}, texts.length < fuel → ∀ rest,
      parseItems close item fuel s (joinComma (text :: texts) ++ close :: rest)
        = some (s', rest) := by
  have hspace : isSpace close = false := by rcases hclose with rfl | rfl <;> decide
  have hne : close ≠ 44 := by rcases hclose with rfl | rfl <;> decide
  induction texts generalizing s text with
  | nil =>
    intro fuel hfuel rest
    obtain ⟨fuel, rfl⟩ : ∃ f, fuel = f + 1 := ⟨fuel - 1, by simp at hfuel; omega⟩
    cases h with
    | cons hstart hread htail =>
      cases htail
      have hitem := hread (close :: rest) (Delim.cons (Or.inr hclose))
      simp only [joinComma, parseItems]
      rw [skipSpace_of_starts hstart, hitem]
      simp [skipSpace_cons hspace, hne]
  | cons next texts ih =>
    intro fuel hfuel rest
    obtain ⟨fuel, rfl⟩ : ∃ f, fuel = f + 1 := ⟨fuel - 1, by simp at hfuel; omega⟩
    cases h with
    | @cons _ s₁ _ _ _ hstart hread htail =>
      have hitem := hread (44 :: (joinComma (next :: texts) ++ close :: rest))
        (Delim.cons (Or.inl rfl))
      have hcomma : isSpace 44 = false := by decide
      simp only [List.length_cons] at hfuel
      simp only [joinComma, parseItems, List.append_assoc, List.cons_append]
      rw [skipSpace_of_starts hstart, hitem]
      simp only [skipSpace_cons hcomma, if_true]
      exact ih htail (by omega) rest

/-- **A rendered container reads back.** -/
theorem parseSeq_renderSeq {opening close : UInt8} (hclose : close = 93 ∨ close = 125)
    (h : Reads item s texts s') (rest : Bytes) :
    parseSeq opening close item s (renderSeq opening close texts ++ rest) = some (s', rest) := by
  have hspace : isSpace close = false := by rcases hclose with rfl | rfl <;> decide
  cases texts with
  | nil =>
    cases h
    simp [renderSeq, joinComma, parseSeq, skipSpace_cons hspace]
  | cons text texts =>
    have hstart : Starts text := by cases h; assumption
    have hlen : texts.length ≤ (joinComma (text :: texts)).length := by
      rw [length_joinComma]
      simp only [List.length_cons]
      omega
    obtain ⟨c, t, htext, hc, hne93, hne125⟩ := hstart
    have hhead : ∃ t', joinComma (text :: texts) = c :: t' := by
      cases texts <;> simp [joinComma, htext]
    obtain ⟨t', ht'⟩ := hhead
    have hcne : c ≠ close := by rcases hclose with rfl | rfl <;> assumption
    have hfuel : texts.length < (joinComma (text :: texts) ++ close :: rest).length := by
      simp only [List.length_append, List.length_cons]
      omega
    have hread := parseItems_joinComma hclose h hfuel rest
    simp only [renderSeq, List.cons_append, List.append_assoc, List.nil_append, parseSeq, if_true]
    rw [ht', List.cons_append] at hread ⊢
    rw [skipSpace_cons hc]
    simp only [if_neg hcne]
    exact hread

theorem parseArray_renderArray (h : Reads item s texts s') (rest : Bytes) :
    parseArray item s (renderArray texts ++ rest) = some (s', rest) :=
  parseSeq_renderSeq (Or.inl rfl) h rest

theorem starts_renderString (s rest : Bytes) : Starts (renderString s ++ rest) :=
  ⟨34, _, rfl, by decide, by decide, by decide⟩

theorem starts_renderNat (n : Nat) : Starts (renderNat n) := by
  obtain ⟨c, t, hn, hc⟩ := renderNat_cons n
  have hspace : isSpace c = false := by
    cases hs : isSpace c with
    | false => rfl
    | true =>
      simp only [isSpace, Bool.or_eq_true, beq_iff_eq] at hs
      rcases hs with ((rfl | rfl) | rfl) | rfl <;> simp [isDigit] at hc
  refine ⟨c, t, hn, hspace, ?_, ?_⟩ <;> rintro rfl <;> simp [isDigit] at hc

theorem starts_renderInt (i : Int) : Starts (renderInt i) := by
  cases i with
  | ofNat n => exact starts_renderNat n
  | negSucc n => exact ⟨45, _, rfl, by decide, by decide, by decide⟩

theorem starts_renderSeq {o : UInt8} (h : o = 91 ∨ o = 123) (texts : List Bytes) :
    Starts (renderSeq o c texts) := by
  rcases h with rfl | rfl
  · exact ⟨91, _, rfl, by decide, by decide, by decide⟩
  · exact ⟨123, _, rfl, by decide, by decide, by decide⟩

/-- A member reads back when its value does. -/
theorem parseMember_renderMember {field : σ → Bytes → Parser σ} {name : Bytes} (hname : Utf8 name)
    (hvalue : Starts value) (h : field s name (value ++ rest) = some (s', rest)) :
    parseMember field s (renderMember name value ++ rest) = some (s', rest) := by
  have hcolon : isSpace 58 = false := by decide
  unfold parseMember renderMember
  rw [List.append_assoc, parseString_renderString hname]
  simp only [List.cons_append, skipSpace_cons hcolon]
  rw [skipSpace_of_starts hvalue, h]

/-- One more member of an object: the step of `Reads` that the struct decoders take. -/
theorem Reads.member {field : σ → Bytes → Parser σ} {s'' : σ} {name : Bytes} (hname : Utf8 name)
    (hvalue : Starts value) (h : ∀ rest, Delim rest → field s name (value ++ rest) = some (s', rest))
    (tail : Reads (parseMember field) s' texts s'') :
    Reads (parseMember field) s (renderMember name value :: texts) s'' :=
  .cons (starts_renderString name _)
    (fun rest hrest => parseMember_renderMember hname hvalue (h rest hrest)) tail

theorem parseObject_renderObject {field : σ → Bytes → Parser σ} {members : List (Bytes × Bytes)}
    (h : Reads (parseMember field) s (members.map fun m => renderMember m.1 m.2) s') (rest : Bytes) :
    parseObject field s (renderObject members ++ rest) = some (s', rest) :=
  parseSeq_renderSeq (Or.inr rfl) h rest

/-! ## Decoding into Go values

Struct fields are selected by name up to simple case folding, absent fields keep their value, and
`null` leaves a value unchanged except that it empties a slice. -/

/-- Simple case folding of a field name: ASCII letters, and the two characters outside ASCII that fold
to one (U+017F and U+212A). -/
def foldName : Bytes → Bytes
  | [] => []
  | 0xC5 :: 0xBF :: rest => 83 :: foldName rest
  | 0xE2 :: 0x84 :: 0xAA :: rest => 75 :: foldName rest
  | c :: rest => (if 97 ≤ c.toNat ∧ c.toNat ≤ 122 then c - 32 else c) :: foldName rest

def isField (name : Bytes) (fieldName : String) : Bool := foldName name == foldName (ascii fieldName)

/-- A name that selects a field selects no other. -/
theorem isField_other {name : Bytes} {field other : String} (h : isField name field = true)
    (hne : foldName (ascii field) ≠ foldName (ascii other)) : isField name other = false := by
  unfold isField at h ⊢
  rw [eq_of_beq h]
  exact beq_eq_false_iff_ne.mpr hne

/-- Run a parser for one field and store its result. -/
def intoField {α : Type} (p : Parser α) (store : α → σ) : Parser σ := fun inp =>
  (p inp).map fun (a, rest) => (store a, rest)

/-- The fields of a struct by their names; a member of no field is refused. -/
def structField (fields : List (String × (σ → Parser σ))) (s : σ) (name : Bytes) : Parser σ :=
  match fields.find? fun f => isField name f.1 with
  | some f => f.2 s
  | none => fun _ => none

def intMin : Int := -9223372036854775808
def intMax : Int := 9223372036854775807
def uint64Max : Nat := 18446744073709551615
def uint32Max : Nat := 4294967295

/-- `int` and `int64`. -/
def decodeInt (old : Int) : Parser Int := orNull old (parseInt intMin intMax)

def decodeUint (hi old : Nat) : Parser Nat := orNull old (parseUint hi)

def decodeByte (old : UInt8) : Parser UInt8 :=
  orNull old (intoField (parseUint 255) UInt8.ofNat)

def decodeString (old : Bytes) : Parser Bytes := orNull old parseString

/-- A slice: elements are decoded into those already there and appended beyond them. -/
def decodeSlice {α : Type} (elem : α → Parser α) (zero : α) (old : List α) : Parser (List α) :=
  orNull [] (parseArray (fun acc => intoField (elem (old.getD acc.length zero)) fun a => acc ++ [a]) [])

/-- `[n]byte`: missing elements are zero, surplus elements are skipped. -/
def decodeByteArray {n : Nat} (old : Vector UInt8 n) : Parser (Vector UInt8 n) :=
  orNull old (intoField
    (parseArray (fun acc inp =>
      if acc.length < n then
        intoField (decodeByte (old.toList.getD acc.length 0)) (fun a => acc ++ [a]) inp
      else (skipValue inp.length inp).map fun (_, rest) => (acc, rest)) [])
    fun acc => Vector.ofFn fun i => acc.getD i 0)

theorem parseNull_of_head (h : c ≠ 110) (rest : Bytes) : parseNull (c :: rest) = none := by
  unfold parseNull
  split
  · rename_i heq; exact absurd (List.cons.inj heq).1 h
  · rfl

theorem orNull_of_head {α : Type} {old : α} {p : Parser α} (h : c ≠ 110) (rest : Bytes) :
    orNull old p (c :: rest) = p (c :: rest) := by
  simp [orNull, parseNull_of_head h]

theorem orNull_renderNat {α : Type} {old : α} {p : Parser α} (n : Nat) (rest : Bytes) :
    orNull old p (renderNat n ++ rest) = p (renderNat n ++ rest) := by
  obtain ⟨c, t, hn, hc⟩ := renderNat_cons n
  rw [hn, List.cons_append]
  apply orNull_of_head
  rintro rfl
  simp [isDigit] at hc

theorem starts_renderLiteral (s : Bytes) : Starts (renderString s) := by
  have h := starts_renderString s []
  rwa [List.append_nil] at h

theorem starts_renderObject (members : List (Bytes × Bytes)) : Starts (renderObject members) :=
  starts_renderSeq (Or.inr rfl) _

theorem spells_int {i old : Int} (h : intMin ≤ i ∧ i ≤ intMax) : Spells (decodeInt old) (renderInt i) i := by
  refine ⟨starts_renderInt i, fun rest hr => ?_⟩
  have hparse := parseInt_renderInt h.1 h.2 hr
  unfold decodeInt
  cases i with
  | ofNat n => rw [renderInt, orNull_renderNat]; exact hparse
  | negSucc n => rw [renderInt, List.cons_append, orNull_of_head (by decide)]; exact hparse

theorem spells_uint {n hi old : Nat} (h : n ≤ hi) : Spells (decodeUint hi old) (renderNat n) n :=
  ⟨starts_renderNat n, fun rest hr => by rw [decodeUint, orNull_renderNat, parseUint_renderNat h hr]⟩

theorem spells_byte {b old : UInt8} : Spells (decodeByte old) (renderNat b.toNat) b := by
  refine ⟨starts_renderNat _, fun rest hr => ?_⟩
  have hb : b.toNat ≤ 255 := Nat.le_of_lt_succ b.toNat_lt
  rw [decodeByte, orNull_renderNat, intoField, parseUint_renderNat hb hr]
  simp

theorem spells_string {s old : Bytes} (hs : Utf8 s) : Spells (decodeString old) (renderString s) s := by
  refine ⟨starts_renderLiteral s, fun rest _ => ?_⟩
  have hparse := parseString_renderString hs rest
  rw [renderString, List.cons_append] at hparse ⊢
  rw [decodeString, orNull_of_head (by decide)]
  exact hparse

/-- Field names are ASCII. -/
theorem utf8_fieldName (s : String) (h : (ascii s).all (fun c => c.toNat < 0x80) = true) : Utf8 (ascii s) :=
  utf8_of_ascii h

/-- An object read into its zero value, where the document does not start with `null`. -/
theorem orNull_renderObject {α : Type} (old : α) (p : Parser α) (members : List (Bytes × Bytes))
    (rest : Bytes) : orNull old p (renderObject members ++ rest) = p (renderObject members ++ rest) := by
  rw [renderObject, renderSeq, List.cons_append]
  exact orNull_of_head (by decide) _

/-- A value read into a field of a struct. -/
theorem intoField_eq {α : Type} {p : Parser α} {store : α → σ} {inp : Bytes} {a : α}
    (h : p inp = some (a, rest)) : intoField p store inp = some (store a, rest) := by
  simp [intoField, h]

/-- The step of `Reads` for a member of a struct: its name selects the field `f`, which is read by `p`. -/
theorem Reads.field {α : Type} {fields : List (String × (σ → Parser σ))} (name : String) {f : σ → Parser σ}
    {p : Parser α} {store : α → σ} {a : α} (hname : (ascii name).all (fun c => c.toNat < 0x80) = true)
    (hselect : fields.find? (fun f => isField (ascii name) f.1) = some (name, f))
    (hf : f s = intoField p store) (h : Spells p value a)
    (tail : Reads (parseMember (structField fields)) (store a) texts s') :
    Reads (parseMember (structField fields)) s (renderMember (ascii name) value :: texts) s' :=
  .member (utf8_of_ascii hname) h.starts (fun rest hrest => by
    rw [structField, hselect]
    show f s (value ++ rest) = _
    rw [hf, intoField_eq (h.reads rest hrest)]) tail

/-- A struct reads back into its zero value when its members do. -/
theorem spells_object {field : σ → Bytes → Parser σ} {members : List (Bytes × Bytes)}
    (h : Reads (parseMember field) s (members.map fun m => renderMember m.1 m.2) s') :
    Spells (orNull s (parseObject field s)) (renderObject members) s' :=
  ⟨starts_renderObject members, fun rest _ => by rw [orNull_renderObject, parseObject_renderObject h]⟩

/-- A slice reads back when each of its elements does. -/
theorem spells_slice {α : Type} {elem : α → Parser α} {zero : α} {render : α → Bytes} {xs : List α}
    (h : ∀ x ∈ xs, Spells (elem zero) (render x) x) :
    Spells (decodeSlice elem zero []) (renderArray (xs.map render)) xs := by
  refine ⟨starts_renderSeq (Or.inl rfl) _, fun rest _ => ?_⟩
  have hreads : Reads (fun acc => intoField (elem ([].getD acc.length zero)) fun a => acc ++ [a]) []
      (xs.map render) xs := by
    apply Reads.elements
    intro before x after hxs
    have hx := h x (by simp [hxs])
    exact ⟨hx.starts, fun rest hrest => intoField_eq (hx.reads rest hrest)⟩
  have harray := parseArray_renderArray hreads rest
  unfold decodeSlice renderArray renderSeq at *
  rw [List.cons_append] at harray ⊢
  rw [orNull_of_head (by decide)]
  exact harray

/-- A byte array of full length reads back. -/
theorem spells_byteArray {n : Nat} {v old : Vector UInt8 n} :
    Spells (decodeByteArray old) (renderArray (v.toList.map fun b => renderNat b.toNat)) v := by
  refine ⟨starts_renderSeq (Or.inl rfl) _, fun rest _ => ?_⟩
  have hreads : Reads (fun (acc : Bytes) inp =>
        if acc.length < n then
          intoField (decodeByte (old.toList.getD acc.length 0)) (fun a => acc ++ [a]) inp
        else (skipValue inp.length inp).map fun (_, rest) => (acc, rest)) []
      (v.toList.map fun b => renderNat b.toNat) v.toList := by
    apply Reads.elements
    intro before b after hv
    have hlen : before.length < n := by
      have := congrArg List.length hv
      simp at this
      omega
    refine ⟨starts_renderNat _, fun rest hrest => ?_⟩
    simp [hlen, intoField, spells_byte.reads rest hrest]
  have harray := parseArray_renderArray hreads rest
  have hvec : (Vector.ofFn fun i : Fin n => v.toList.getD i 0) = v := by
    ext i hi
    simp
  unfold decodeByteArray
  unfold renderArray renderSeq at *
  rw [List.cons_append] at harray ⊢
  rw [orNull_of_head (by decide), intoField, harray]
  simp only [Option.map_some, hvec]

end Wire.Json
