import Helmr.Lib.Fallible
import Helmr.Wire.Json
import Helmr.Wire.Order
import Helmr.Wire.Space

/-!
# Wire — JSON documents

A JSON text read as a whole: `parseValue` reads it into a tree, and the decoders of Go values take the tree
apart. A name may occur several times in an object; `Value.unique` says that none does. What `Value.render`
writes is read back (`spells_render`, `firstValue_object`).
-/

namespace Wire.Json

open Wire Fallible
open Wire.Order

/-- A number keeps its text. -/
inductive Value where
  | null
  | bool (b : Bool)
  | number (text : Bytes)
  | string (s : Bytes)
  | array (items : List Value)
  | object (members : List (Bytes × Value))

/-! ## Reading -/

/-- The texts of containers nest up to `depth`. -/
def parseValue : (depth : Nat) → Parser Value
  | 0, _ => none
  | depth + 1, inp =>
    match inp with
    | 34 :: _ => intoField parseString Value.string inp
    | 91 :: _ =>
      intoField (parseArray (fun acc => intoField (parseValue depth) fun v => acc ++ [v]) []) Value.array inp
    | 123 :: _ =>
      intoField (parseObject (fun acc name => intoField (parseValue depth) fun v => acc ++ [(name, v)]) [])
        Value.object inp
    | 110 :: 117 :: 108 :: 108 :: rest => some (.null, rest)
    | 116 :: 114 :: 117 :: 101 :: rest => some (.bool true, rest)
    | 102 :: 97 :: 108 :: 115 :: 101 :: rest => some (.bool false, rest)
    | _ => (skipNumber inp).map fun rest => (.number (inp.take (inp.length - rest.length)), rest)

/-- The scanner of `encoding/json` opens at most 10000 containers. -/
def maxDepth : Nat := 10001

/-- The first value of a text, and what follows it. -/
def firstValue (raw : Bytes) : Option (Value × Bytes) := parseValue maxDepth (skipSpace raw)

mutual

/-- No object names a member twice. -/
def Value.unique : Value → Bool
  | .array items => uniqueItems items
  | .object members => decide (members.map Prod.fst).Nodup && uniqueMembers members
  | _ => true

def uniqueItems : List Value → Bool
  | [] => true
  | v :: vs => v.unique && uniqueItems vs

def uniqueMembers : List (Bytes × Value) → Bool
  | [] => true
  | (_, v) :: ms => v.unique && uniqueMembers ms

end

theorem uniqueItems_eq (vs : List Value) : uniqueItems vs = vs.all Value.unique := by
  induction vs with
  | nil => rfl
  | cons v vs ih => rw [uniqueItems, ih, List.all_cons]

theorem uniqueMembers_eq (ms : List (Bytes × Value)) : uniqueMembers ms = ms.all fun m => m.2.unique := by
  induction ms with
  | nil => rfl
  | cons m ms ih =>
    obtain ⟨name, v⟩ := m
    rw [uniqueMembers, ih, List.all_cons]

theorem unique_array {vs : List Value} : (Value.array vs).unique = true ↔ ∀ v ∈ vs, v.unique = true := by
  rw [Value.unique, uniqueItems_eq, List.all_eq_true]

theorem unique_object {ms : List (Bytes × Value)} :
    (Value.object ms).unique = true ↔ (ms.map Prod.fst).Nodup ∧ ∀ m ∈ ms, m.2.unique = true := by
  rw [Value.unique, Bool.and_eq_true, decide_eq_true_eq, uniqueMembers_eq, List.all_eq_true]

/-- A value inside another one. -/
inductive Inside (w : Value) : Value → Prop
  | self : Inside w w
  | item {items : List Value} {v : Value} (hv : v ∈ items) (h : Inside w v) : Inside w (.array items)
  | member {ms : List (Bytes × Value)} {m : Bytes × Value} (hm : m ∈ ms) (h : Inside w m.2) : Inside w (.object ms)

theorem nodup_of_unique {v : Value} {ms : List (Bytes × Value)} (h : v.unique = true)
    (hms : Inside (.object ms) v) : (ms.map Prod.fst).Nodup := by
  induction hms with
  | self => exact (unique_object.mp h).1
  | item hv _ ih => exact ih (unique_array.mp h _ hv)
  | member hm _ ih => exact ih ((unique_object.mp h).2 _ hm)

/-! ## Writing -/

mutual

def Value.render : Value → Bytes
  | .null => ascii "null"
  | .bool true => ascii "true"
  | .bool false => ascii "false"
  | .number text => text
  | .string s => renderString s
  | .array items => renderArray (renderItems items)
  | .object members => renderObject (renderMembers members)

def renderItems : List Value → List Bytes
  | [] => []
  | v :: vs => v.render :: renderItems vs

def renderMembers : List (Bytes × Value) → List (Bytes × Bytes)
  | [] => []
  | (name, v) :: ms => (name, v.render) :: renderMembers ms

end

theorem renderItems_eq (vs : List Value) : renderItems vs = vs.map Value.render := by
  induction vs with
  | nil => rfl
  | cons v vs ih => rw [renderItems, ih, List.map_cons]

theorem renderMembers_eq (ms : List (Bytes × Value)) :
    renderMembers ms = ms.map fun m => (m.1, m.2.render) := by
  induction ms with
  | nil => rfl
  | cons m ms ih =>
    obtain ⟨name, v⟩ := m
    rw [renderMembers, ih, List.map_cons]

mutual

/-- The text of a value that went through a variable of any type: members are sorted by name and numbers
are written anew, as `number` writes them. -/
def Value.renderSorted (number : Bytes → Bytes) : Value → Bytes
  | .null => ascii "null"
  | .bool true => ascii "true"
  | .bool false => ascii "false"
  | .number text => number text
  | .string s => renderString s
  | .array items => renderArray (sortedItems number items)
  | .object members => renderObject ((sortedMembers number members).insertionSort fun a b => a.1 ≤ b.1)

def sortedItems (number : Bytes → Bytes) : List Value → List Bytes
  | [] => []
  | v :: vs => v.renderSorted number :: sortedItems number vs

def sortedMembers (number : Bytes → Bytes) : List (Bytes × Value) → List (Bytes × Bytes)
  | [] => []
  | (name, v) :: ms => (name, v.renderSorted number) :: sortedMembers number ms

end

/-- A text that is read as one number before a delimiter. -/
structure IsNumber (text : Bytes) : Prop where
  starts : ∃ c t, text = c :: t ∧ (c = 45 ∨ isDigit c = true)
  reads : ∀ rest, Delim rest → skipNumber (text ++ rest) = some rest

/-- A text after its sign, if it has one. -/
def unsign (inp : Bytes) : Bytes :=
  match inp with
  | 45 :: rest => rest
  | _ => inp

/-- The scanner of numbers on a sign, if any, digits and a delimiter. -/
theorem skipNumber_digits {inp unsigned rest : Bytes} {n : Nat} (hinp : inp = unsigned ∨ inp = 45 :: unsigned)
    (hunsigned : ∃ c t, unsigned = c :: t ∧ c ≠ 45) (hparse : parseNat unsigned = some (n, rest))
    (hrest : Delim rest) : skipNumber inp = some rest := by
  obtain ⟨d, u, rfl, hd⟩ := hrest
  obtain ⟨c, t, rfl, hc⟩ := hunsigned
  have hsign : ∀ found, parseNat (unsign inp) = found → found = some (n, d :: u) := by
    rintro found rfl
    unfold unsign
    rcases hinp with rfl | rfl
    · split
      · rename_i heq
        exact absurd (List.cons.inj heq).1 hc
      · exact hparse
    · exact hparse
  clear hinp
  unfold skipNumber
  dsimp only
  split
  · rename_i hnone
    cases hsign none hnone
  · rename_i m left hsome
    cases hsign _ hsome
    rcases hd with rfl | rfl | rfl <;> rfl

theorem isNumber_renderInt (i : Int) : IsNumber (renderInt i) := by
  have hunsigned (n : Nat) (rest : Bytes) : ∃ c t, renderNat n ++ rest = c :: t ∧ c ≠ 45 := by
    obtain ⟨c, t, hn, hc⟩ := renderNat_cons n
    refine ⟨c, t ++ rest, by rw [hn, List.cons_append], ?_⟩
    rintro rfl
    simp [isDigit] at hc
  cases i with
  | ofNat n =>
    obtain ⟨c, t, hn, hc⟩ := renderNat_cons n
    exact ⟨⟨c, t, hn, Or.inr hc⟩, fun rest hrest =>
      skipNumber_digits (Or.inl rfl) (hunsigned n rest) (parseNat_renderNat n hrest) hrest⟩
  | negSucc n =>
    exact ⟨⟨45, _, rfl, Or.inl rfl⟩, fun rest hrest =>
      skipNumber_digits (Or.inr rfl) (hunsigned (n + 1) rest) (parseNat_renderNat (n + 1) hrest) hrest⟩

/-- Texts are UTF-8, numbers are numbers, and containers nest up to `depth`. -/
def Fits : (depth : Nat) → Value → Prop
  | 0, _ => False
  | _ + 1, .number text => IsNumber text
  | _ + 1, .string s => Utf8 s
  | depth + 1, .array items => ∀ v ∈ items, Fits depth v
  | depth + 1, .object members => ∀ m ∈ members, Utf8 m.1 ∧ Fits depth m.2
  | _ + 1, _ => True

theorem Fits.mono {depth depth' : Nat} (hle : depth ≤ depth') {v : Value} (h : Fits depth v) :
    Fits depth' v := by
  induction depth generalizing depth' v with
  | zero => cases h
  | succ depth ih =>
    obtain ⟨depth', rfl⟩ : ∃ d, depth' = d + 1 := ⟨depth' - 1, by omega⟩
    have hle' : depth ≤ depth' := by omega
    cases v with
    | array items => exact fun v hv => ih hle' (h v hv)
    | object members => exact fun m hm => ⟨(h m hm).1, ih hle' (h m hm).2⟩
    | null => exact trivial
    | bool b => exact trivial
    | number text => exact h
    | string s => exact h

theorem IsNumber.head {text : Bytes} (h : IsNumber text) :
    ∃ c t, text = c :: t ∧ c ≠ 34 ∧ c ≠ 91 ∧ c ≠ 123 ∧ c ≠ 110 ∧ c ≠ 116 ∧ c ≠ 102 ∧ isSpace c = false ∧
      c ≠ 93 ∧ c ≠ 125 := by
  obtain ⟨c, t, rfl, hc⟩ := h.starts
  refine ⟨c, t, rfl, ?_⟩
  rcases hc with rfl | hdigit
  · decide
  · refine ⟨?_, ?_, ?_, ?_, ?_, ?_, ?_, ?_, ?_⟩
    case refine_7 =>
      cases hs : isSpace c with
      | false => rfl
      | true =>
        simp only [isSpace, Bool.or_eq_true, beq_iff_eq] at hs
        rcases hs with ((rfl | rfl) | rfl) | rfl <;> simp [isDigit] at hdigit
    all_goals
      rintro rfl
      simp [isDigit] at hdigit

theorem starts_render {depth : Nat} {v : Value} (h : Fits depth v) : Starts v.render := by
  cases depth with
  | zero => cases h
  | succ depth =>
    cases v with
    | null => exact ⟨110, _, rfl, by decide, by decide, by decide⟩
    | bool b =>
      cases b
      · exact ⟨102, _, rfl, by decide, by decide, by decide⟩
      · exact ⟨116, _, rfl, by decide, by decide, by decide⟩
    | number text =>
      obtain ⟨c, t, rfl, _, _, _, _, _, _, hspace, hbracket, hbrace⟩ := IsNumber.head h
      exact ⟨c, t, rfl, hspace, hbracket, hbrace⟩
    | string s => exact starts_renderLiteral s
    | array items => exact starts_renderSeq (Or.inl rfl) _
    | object members => exact starts_renderObject _

/-! ## What is written is read back -/

section RoundTrip

variable {depth : Nat}

/-- The step for containers: what holds of the parts is all they need. -/
theorem parseValue_array {vs : List Value} (h : ∀ v ∈ vs, Spells (parseValue depth) v.render v) (rest : Bytes) :
    parseValue (depth + 1) ((Value.array vs).render ++ rest) = some (.array vs, rest) := by
  have hreads : Reads (fun acc => intoField (parseValue depth) fun v => acc ++ [v]) [] (vs.map Value.render) vs := by
    apply Reads.elements
    intro before v after hvs
    have hv := h v (by simp [hvs])
    exact ⟨hv.starts, fun rest hrest => intoField_eq (hv.reads rest hrest)⟩
  rw [Value.render, renderItems_eq]
  exact intoField_eq (parseArray_renderArray hreads rest)

theorem parseValue_object {ms : List (Bytes × Value)}
    (h : ∀ m ∈ ms, Utf8 m.1 ∧ Spells (parseValue depth) m.2.render m.2) (rest : Bytes) :
    parseValue (depth + 1) ((Value.object ms).render ++ rest) = some (.object ms, rest) := by
  have hreads : Reads (parseMember fun acc name => intoField (parseValue depth) fun v => acc ++ [(name, v)]) []
      ((ms.map fun m => (m.1, m.2.render)).map fun m => renderMember m.1 m.2) ms := by
    rw [List.map_map]
    apply Reads.elements
    intro before m after hms
    obtain ⟨hname, hm⟩ := h m (by simp [hms])
    refine ⟨starts_renderString _ _, fun rest hrest => ?_⟩
    exact parseMember_renderMember hname hm.starts (intoField_eq (hm.reads rest hrest))
  rw [Value.render, renderMembers_eq]
  exact intoField_eq (parseObject_renderObject hreads rest)

theorem parseValue_number {text rest : Bytes} (h : IsNumber text) (hrest : Delim rest) :
    parseValue (depth + 1) (text ++ rest) = some (.number text, rest) := by
  have hskip := h.reads rest hrest
  obtain ⟨c, t, rfl, hquote, hbracket, hbrace, hn, ht, hf, _⟩ := h.head
  have hlength : (c :: t ++ rest).length - rest.length = (c :: t).length := by
    rw [List.length_append, Nat.add_sub_cancel]
  rw [List.cons_append] at *
  unfold parseValue
  split
  case h_7 =>
    rw [hskip, Option.map_some, hlength, ← List.cons_append, List.take_left]
  all_goals
    rename_i heq
    have hhead := (List.cons.inj heq).1
    contradiction

/-- **A value reads back** before any delimiter. -/
theorem spells_render {v : Value} (h : Fits depth v) : Spells (parseValue depth) v.render v := by
  induction depth generalizing v with
  | zero => cases h
  | succ depth ih =>
    refine ⟨starts_render h, fun rest hrest => ?_⟩
    cases v with
    | null => rfl
    | bool b => cases b <;> rfl
    | number text => exact parseValue_number h hrest
    | string s => exact intoField_eq (parseString_renderString h rest)
    | array items => exact parseValue_array (fun v hv => ih (h v hv)) rest
    | object members => exact parseValue_object (fun m hm => ⟨(h m hm).1, ih (h m hm).2⟩) rest

/-- **A document that is an object reads back.** -/
theorem firstValue_object {ms : List (Bytes × Value)} (h : ∀ m ∈ ms, Utf8 m.1 ∧ Fits depth m.2)
    (hdepth : depth < maxDepth) : firstValue (Value.object ms).render = some (.object ms, []) := by
  have hparts : ∀ m ∈ ms, Utf8 m.1 ∧ Spells (parseValue (maxDepth - 1)) m.2.render m.2 :=
    fun m hm => ⟨(h m hm).1, spells_render ((h m hm).2.mono (by omega))⟩
  have hobject := parseValue_object hparts []
  have hspace := skipSpace_of_starts (starts_renderObject (renderMembers ms)) []
  rw [List.append_nil] at hobject hspace
  unfold firstValue
  rw [Value.render] at hobject ⊢
  rw [hspace]
  exact hobject

end RoundTrip

/-! ## Objects among other texts -/

section Object

/-- The white space of JSON is white space. -/
theorem trimLeft_spaces {raw t : Bytes} (h : skipSpace raw = 123 :: t) {n : Nat} (hn : raw.length ≤ n) :
    trimLeft spaces n raw = 123 :: t := by
  induction raw generalizing n with
  | nil => cases h
  | cons c rest ih =>
    obtain ⟨n, rfl⟩ : ∃ m, n = m + 1 := ⟨n - 1, by simp at hn; omega⟩
    have hrest : rest.length ≤ n := by simpa using hn
    by_cases hspace : isSpace c = true
    · have hskip : skipSpace rest = 123 :: t := by
        rw [← h]
        simp [skipSpace, hspace]
      have hfind : spaces.find? (·.isPrefixOf (c :: rest)) = some [c] := by
        simp only [isSpace, Bool.or_eq_true, beq_iff_eq] at hspace
        rcases hspace with ((rfl | rfl) | rfl) | rfl <;> rfl
      unfold trimLeft
      rw [hfind]
      exact ih hskip hrest
    · have hhead : c :: rest = 123 :: t := by
        rw [← h]
        simp [skipSpace, hspace]
      cases hhead
      rfl

theorem trimSpace_ne_null {raw t : Bytes} (h : skipSpace raw = 123 :: t) : trimSpace raw ≠ ascii "null" := by
  intro heq
  unfold trimSpace at heq
  rw [trimLeft_spaces h (Nat.le_refl _)] at heq
  -- what is left is a prefix, and starts with the brace
  have hsuffix := trimLeft_suffix (spaces.map List.reverse) (123 :: t).length (123 :: t).reverse
  have hprefix := List.reverse_prefix.mpr hsuffix
  rw [List.reverse_reverse] at hprefix
  rw [show (trimLeft (spaces.map List.reverse) (123 :: t).length (123 :: t).reverse).reverse = _ from heq] at hprefix
  obtain ⟨rest, hrest⟩ := hprefix
  exact absurd (List.cons.inj hrest).1 (by decide)

theorem head_of_object {depth : Nat} {inp rest : Bytes} {ms : List (Bytes × Value)}
    (h : parseValue depth inp = some (.object ms, rest)) : ∃ t, inp = 123 :: t := by
  cases depth with
  | zero => cases h
  | succ depth =>
    have hinto {α : Type} {q : Parser α} {store : α → Value} (hq : intoField q store inp = some (.object ms, rest)) :
        ∃ a, store a = .object ms := by
      unfold intoField at hq
      obtain ⟨⟨a, _⟩, _, heq⟩ := Option.map_eq_some_iff.mp hq
      exact ⟨a, (Prod.mk.inj heq).1⟩
    unfold parseValue at h
    split at h
    · obtain ⟨_, hv⟩ := hinto h
      cases hv
    · obtain ⟨_, hv⟩ := hinto h
      cases hv
    · exact ⟨_, rfl⟩
    · cases h
    · cases h
    · cases h
    · obtain ⟨_, _, heq⟩ := Option.map_eq_some_iff.mp h
      cases heq

end Object

/-! ## Decoding into Go values

An error is noted and decoding goes on, and the first one is reported; `fail` stands for the decoder's own. -/

section Decode

variable {ε α σ : Type} (fail : ε)

def Value.asString (old : Bytes) : Value → Except ε Bytes
  | .string s => .ok s
  | .null => .ok old
  | _ => .error fail

def Value.asBool (old : Bool) : Value → Except ε Bool
  | .bool b => .ok b
  | .null => .ok old
  | _ => .error fail

/-- A 64-bit integer, as `strconv.ParseInt` reads the text of the number. -/
def Value.asInt64 (old : Int64) : Value → Except ε Int64
  | .number text =>
    match parseInt intMin intMax text with
    | some (i, []) => .ok (Int64.ofInt i)
    | _ => .error fail
  | .null => .ok old
  | _ => .error fail

/-- A struct: each member updates the field that its name selects. -/
def Value.asStruct (field : σ → Bytes → Value → Except ε σ) (old : σ) : Value → Except ε σ
  | .object members => members.foldlM (fun s m => field s m.1 m.2) old
  | .null => .ok old
  | _ => .error fail

/-- A slice: elements are decoded into those already there and appended beyond them. -/
def Value.asSlice (elem : α → Value → Except ε α) (zero : α) (old : List α) : Value → Except ε (List α)
  | .array items => items.foldlM (fun acc v => do return acc ++ [← elem (old.getD acc.length zero) v]) []
  | .null => .ok []
  | _ => .error fail

def Value.isNull : Value → Bool
  | .null => true
  | _ => false

/-- A slice that `null` makes nil. -/
def Value.asNilable (elem : α → Value → Except ε α) (zero : α) (old : Option (List α)) (v : Value) :
    Except ε (Option (List α)) :=
  if v.isNull then .ok none else some <$> v.asSlice fail elem zero (old.getD [])

/-- A map of raw values; `null` is the map that is nil. -/
def Value.asMap : Value → Except ε (List (Bytes × Value))
  | .object members => .ok members
  | .null => .ok []
  | _ => .error fail

/-- A slice reads back when each of its elements does. -/
theorem asSlice_array {elem : α → Value → Except ε α} {zero : α} {value : α → Value} {xs : List α}
    (h : ∀ x ∈ xs, elem zero (value x) = .ok x) :
    (Value.array (xs.map value)).asSlice fail elem zero [] = .ok xs := by
  have hfold : ∀ (ys acc : List α), (∀ x ∈ ys, x ∈ xs) →
      (ys.map value).foldlM (fun acc v => do return acc ++ [← elem (([] : List α).getD acc.length zero) v]) acc
        = Except.ok (ε := ε) (acc ++ ys) := by
    intro ys
    induction ys with
    | nil =>
      intro acc _
      rw [List.append_nil]
      rfl
    | cons y ys ih =>
      intro acc hmem
      have hnext := ih (acc ++ [y]) fun x hx => hmem x (by simp [hx])
      rw [List.append_assoc, List.singleton_append] at hnext
      have hy : elem (([] : List α).getD acc.length zero) (value y) = .ok y := h y (hmem y (by simp))
      rw [List.map_cons, List.foldlM_cons, hy]
      exact hnext
  exact hfold xs [] fun x hx => hx

theorem asNilable_array {elem : α → Value → Except ε α} {zero : α} {value : α → Value} {xs : List α}
    (h : ∀ x ∈ xs, elem zero (value x) = .ok x) :
    (Value.array (xs.map value)).asNilable fail elem zero none = .ok (some xs) := by
  show some <$> (Value.array (xs.map value)).asSlice fail elem zero [] = _
  rw [asSlice_array fail h]
  rfl

theorem asNilable_strings (ss : List Bytes) :
    (Value.array (ss.map .string)).asNilable fail (Value.asString fail) [] none = .ok (some ss) :=
  asNilable_array fail fun _ _ => rfl

end Decode

theorem asInt64_renderInt {ε : Type} (fail : ε) (old i : Int64) :
    (Value.number (renderInt i.toInt)).asInt64 fail old = .ok i := by
  have hlo : intMin ≤ i.toInt := i.le_toInt
  have hhi : i.toInt ≤ intMax := i.toInt_le
  have hparse := parseInt_of_stops hlo hhi Stops.nil
  rw [List.append_nil] at hparse
  show (match parseInt intMin intMax (renderInt i.toInt) with
    | some (i, []) => Except.ok (Int64.ofInt i)
    | _ => Except.error fail) = _
  rw [hparse]
  show Except.ok (Int64.ofInt i.toInt) = _
  rw [Int64.ofInt_toInt]

/-- A member that is left out unless it is needed. -/
theorem eq_of_mem_optional {α : Type} {P : Prop} [Decidable P] {m x : α} (h : m ∈ if P then [] else [x]) : m = x :=
  List.mem_singleton.mp (List.mem_ite_nil_left.mp h).2

theorem unique_strings (ss : List Bytes) : (Value.array (ss.map .string)).unique = true := by
  refine unique_array.mpr fun v hv => ?_
  obtain ⟨s, _, rfl⟩ := List.mem_map.mp hv
  rfl

theorem renderItems_strings (ss : List Bytes) : renderItems (ss.map .string) = ss.map renderString := by
  rw [renderItems_eq, List.map_map]
  rfl

end Wire.Json
