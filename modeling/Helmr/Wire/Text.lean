import Helmr.Wire.Bytes

/-!
# Wire — JSON scalars

The lexical layer of the JSON texts this development reads and writes: UTF-8 sequences, string
literals and decimal integers, with the escaping and coercions of Go's `encoding/json`.

* `runeLen` recognises the well-formed UTF-8 sequence at the head of a byte string;
* `renderString`/`parseString` are the string literal and its unquoting. Writing coerces each
  byte that is not part of a well-formed sequence to U+FFFD, so reading back is the identity
  exactly on `Utf8` strings (`parseString_renderString`);
* `renderInt`/`parseInt` are the decimal literals of the integer types.

A parser consumes a prefix of its input and returns the rest; every round-trip law is stated with an
arbitrary rest so that the laws compose.
-/

namespace Wire.Json

open Wire

abbrev Parser (α : Type) := Bytes → Option (α × Bytes)

/-! ## UTF-8 -/

def isTail (b : UInt8) : Bool := 0x80 ≤ b.toNat && b.toNat ≤ 0xBF

/-- The second octet of a sequence whose first octet is `n`: no overlong form, no surrogate, nothing
above U+10FFFF. -/
def isSecond (n : Nat) (b : UInt8) : Bool :=
  isTail b && (n ≠ 0xE0 || 0xA0 ≤ b.toNat) && (n ≠ 0xED || b.toNat ≤ 0x9F)
    && (n ≠ 0xF0 || 0x90 ≤ b.toNat) && (n ≠ 0xF4 || b.toNat ≤ 0x8F)

/-- The length of the well-formed UTF-8 sequence at the head of a string, if there is one. -/
def runeLen : Bytes → Option Nat
  | [] => none
  | a :: rest =>
    if a.toNat < 0x80 then some 1
    else if 0xC2 ≤ a.toNat ∧ a.toNat ≤ 0xDF then
      match rest with
      | b :: _ => if isTail b then some 2 else none
      | [] => none
    else if 0xE0 ≤ a.toNat ∧ a.toNat ≤ 0xEF then
      match rest with
      | b :: c :: _ => if isSecond a.toNat b && isTail c then some 3 else none
      | _ => none
    else if 0xF0 ≤ a.toNat ∧ a.toNat ≤ 0xF4 then
      match rest with
      | b :: c :: d :: _ => if isSecond a.toNat b && isTail c && isTail d then some 4 else none
      | _ => none
    else none

/-- A string made of well-formed sequences only. -/
inductive Utf8 : Bytes → Prop where
  | nil : Utf8 []
  | rune {s : Bytes} {k : Nat} (head : runeLen s = some k) (rest : Utf8 (s.drop k)) : Utf8 s

def validRunes : (fuel : Nat) → Bytes → Bool
  | _, [] => true
  | 0, _ :: _ => false
  | fuel + 1, c :: s =>
    match runeLen (c :: s) with
    | none => false
    | some k => validRunes fuel ((c :: s).drop k)

/-- `utf8.ValidString`. -/
def validString (s : Bytes) : Bool := validRunes s.length s

variable {s : Bytes} {n d : Nat} {c : UInt8} {rest : Bytes}

/-- One ASCII octet, or several octets above ASCII. -/
def Rune (r : Bytes) : Prop := (∃ c, r = [c] ∧ c.toNat < 0x80) ∨ 2 ≤ r.length ∧ ∀ c ∈ r, 0x80 ≤ c.toNat

theorem Rune.length_pos {r : Bytes} (h : Rune r) : 0 < r.length := by
  rcases h with ⟨c, rfl, -⟩ | ⟨hlength, -⟩
  · exact Nat.one_pos
  · omega

theorem le_of_isTail (h : isTail c = true) : 0x80 ≤ c.toNat := by
  simp only [isTail, Bool.and_eq_true, decide_eq_true_eq] at h
  exact h.1

theorem le_of_isSecond (h : isSecond n c = true) : 0x80 ≤ c.toNat := by
  simp only [isSecond, Bool.and_eq_true] at h
  exact le_of_isTail h.1.1.1.1

/-- The shape of a recognised sequence: it is a non-empty prefix and decides recognition alone. The cases are those
of `runeLen`: a first octet of one, two, three or four. -/
theorem runeLen_some {k : Nat} (h : runeLen s = some k) :
    ∃ r t, s = r ++ t ∧ r.length = k ∧ (∀ t', runeLen (r ++ t') = some k) ∧ Rune r := by
  cases s with
  | nil => simp [runeLen] at h
  | cons a rest =>
    by_cases h1 : a.toNat < 0x80
    · have hk : k = 1 := by simpa [runeLen, h1, eq_comm] using h
      exact ⟨[a], rest, rfl, hk.symm ▸ rfl, fun t' => by simp [runeLen, h1, hk], .inl ⟨a, rfl, h1⟩⟩
    have ha : 0x80 ≤ a.toNat := not_lt.mp h1
    by_cases h2 : 0xC2 ≤ a.toNat ∧ a.toNat ≤ 0xDF
    · match rest with
      | [] => simp [runeLen, h1, h2] at h
      | b :: t =>
        by_cases hb : isTail b = true
        · have hk : k = 2 := by simpa [runeLen, h1, h2, hb, eq_comm] using h
          exact ⟨[a, b], t, rfl, hk.symm ▸ rfl, fun t' => by simp [runeLen, h1, h2, hb, hk],
            .inr ⟨le_rfl, by simp [ha, le_of_isTail hb]⟩⟩
        · simp [runeLen, h1, h2, hb] at h
    by_cases h3 : 0xE0 ≤ a.toNat ∧ a.toNat ≤ 0xEF
    · match rest with
      | [] => simp [runeLen, h1, h2, h3] at h
      | [_] => simp [runeLen, h1, h2, h3] at h
      | b :: c :: t =>
        by_cases hb : (isSecond a.toNat b && isTail c) = true
        · have hk : k = 3 := by simpa [runeLen, h1, h2, h3, hb, eq_comm] using h
          have hparts := (Bool.and_eq_true _ _).mp hb
          exact ⟨[a, b, c], t, rfl, hk.symm ▸ rfl, fun t' => by simp [runeLen, h1, h2, h3, hb, hk],
            .inr ⟨by simp, by simp [ha, le_of_isSecond hparts.1, le_of_isTail hparts.2]⟩⟩
        · simp [runeLen, h1, h2, h3, hb] at h
    by_cases h4 : 0xF0 ≤ a.toNat ∧ a.toNat ≤ 0xF4
    · match rest with
      | [] => simp [runeLen, h1, h2, h3, h4] at h
      | [_] => simp [runeLen, h1, h2, h3, h4] at h
      | [_, _] => simp [runeLen, h1, h2, h3, h4] at h
      | b :: c :: d :: t =>
        by_cases hb : (isSecond a.toNat b && isTail c && isTail d) = true
        · have hk : k = 4 := by simpa [runeLen, h1, h2, h3, h4, hb, eq_comm] using h
          simp only [Bool.and_eq_true] at hb
          exact ⟨[a, b, c, d], t, rfl, hk.symm ▸ rfl, fun t' => by simp [runeLen, h1, h2, h3, h4, hb, hk],
            .inr ⟨by simp, by simp [ha, le_of_isSecond hb.1.1, le_of_isTail hb.1.2, le_of_isTail hb.2]⟩⟩
        · simp [runeLen, h1, h2, h3, h4, hb] at h
    simp [runeLen, h1, h2, h3, h4] at h

/-- A string of ASCII octets is well-formed. -/
theorem utf8_of_ascii (h : s.all (fun c => c.toNat < 0x80) = true) : Utf8 s := by
  induction s with
  | nil => exact .nil
  | cons c rest ih =>
    simp only [List.all_cons, Bool.and_eq_true, decide_eq_true_eq] at h
    refine .rune (k := 1) (by simp [runeLen, h.1]) ?_
    exact ih h.2

/-! ## String literals -/

def hexDigit (n : Nat) : UInt8 := if n < 10 then UInt8.ofNat (48 + n) else UInt8.ofNat (87 + n)

def hexVal (c : UInt8) : Option Nat :=
  let n := c.toNat
  if 48 ≤ n ∧ n ≤ 57 then some (n - 48)
  else if 97 ≤ n ∧ n ≤ 102 then some (n - 87)
  else if 65 ≤ n ∧ n ≤ 70 then some (n - 55)
  else none

/-- An octet in a `%q` literal, where it is ASCII or belongs to no well-formed sequence. -/
def quoteOctet (c : UInt8) : Bytes :=
  if c = 34 ∨ c = 92 then [92, c]
  else if 32 ≤ c.toNat ∧ c.toNat < 127 then [c]
  else if 7 ≤ c.toNat ∧ c.toNat ≤ 13 then [92, (ascii "abtnvfr").getD (c.toNat - 7) 0]
  else [92, 120, hexDigit (c.toNat / 16), hexDigit (c.toNat % 16)]

def quoteChars : (fuel : Nat) → Bytes → Bytes
  | 0, _ => []
  | _ + 1, [] => []
  | fuel + 1, c :: s =>
    match runeLen (c :: s) with
    | none | some 1 => quoteOctet c ++ quoteChars fuel s
    | some k => (c :: s).take k ++ quoteChars fuel ((c :: s).drop k)

/-- `%q` of a string. Go also escapes the runes beyond ASCII that do not print; its table of them is
not modelled, and they are kept here. -/
def quoted (s : Bytes) : Bytes := 34 :: (quoteChars s.length s ++ [34])

/-- `\u00xx` for an octet below 0x80. -/
def escapeHex (c : UInt8) : Bytes :=
  [92, 117, 48, 48, hexDigit (c.toNat / 16), hexDigit (c.toNat % 16)]

/-- The escaping of one ASCII octet, HTML-sensitive characters included. -/
def escapeAscii (c : UInt8) : Bytes :=
  if c = 34 ∨ c = 92 then [92, c]
  else if c = 8 then [92, 98]
  else if c = 12 then [92, 102]
  else if c = 10 then [92, 110]
  else if c = 13 then [92, 114]
  else if c = 9 then [92, 116]
  else if c.toNat < 32 ∨ c = 60 ∨ c = 62 ∨ c = 38 then escapeHex c
  else [c]

/-- The rendering of one well-formed sequence. The line separators U+2028 and U+2029 are escaped. -/
def escapeRune (r : Bytes) : Bytes :=
  match r with
  | [c] => escapeAscii c
  | _ =>
    if r = [0xE2, 0x80, 0xA8] then [92, 117, 50, 48, 50, 56]
    else if r = [0xE2, 0x80, 0xA9] then [92, 117, 50, 48, 50, 57]
    else r

/-- U+FFFD, written in place of an octet that belongs to no well-formed sequence. -/
def replacement : Bytes := [0xEF, 0xBF, 0xBD]

def renderChars : (fuel : Nat) → Bytes → Bytes
  | 0, _ => []
  | _ + 1, [] => []
  | fuel + 1, c :: s =>
    match runeLen (c :: s) with
    | none => replacement ++ renderChars fuel s
    | some k => escapeRune ((c :: s).take k) ++ renderChars fuel ((c :: s).drop k)

def renderString (s : Bytes) : Bytes := 34 :: (renderChars s.length s ++ [34])

/-- The UTF-8 form of a code point; surrogates and values out of range give U+FFFD. -/
def encodeRune (n : Nat) : Bytes :=
  if n < 0x80 then [UInt8.ofNat n]
  else if n < 0x800 then [UInt8.ofNat (0xC0 + n / 64), UInt8.ofNat (0x80 + n % 64)]
  else if 0xD800 ≤ n ∧ n < 0xE000 ∨ 0x110000 ≤ n then replacement
  else if n < 0x10000 then
    [UInt8.ofNat (0xE0 + n / 4096), UInt8.ofNat (0x80 + n / 64 % 64), UInt8.ofNat (0x80 + n % 64)]
  else
    [UInt8.ofNat (0xF0 + n / 262144), UInt8.ofNat (0x80 + n / 4096 % 64),
      UInt8.ofNat (0x80 + n / 64 % 64), UInt8.ofNat (0x80 + n % 64)]

/-- Four hexadecimal digits. -/
def parseHex4 : Parser Nat
  | a :: b :: c :: d :: rest =>
    match hexVal a, hexVal b, hexVal c, hexVal d with
    | some va, some vb, some vc, some vd => some (va * 4096 + vb * 256 + vc * 16 + vd, rest)
    | _, _, _, _ => none
  | _ => none

/-- The code unit of a `\u` escape, after the `u`. A high surrogate takes the low surrogate escape
after it; an unpaired surrogate stands for U+FFFD. -/
def parseUnicode (inp : Bytes) : Option (Bytes × Bytes) :=
  match parseHex4 inp with
  | none => none
  | some (n, rest) =>
    if 0xD800 ≤ n ∧ n < 0xE000 then
      match rest with
      | 92 :: 117 :: low =>
        match parseHex4 low with
        | some (m, rest') =>
          if n < 0xDC00 ∧ 0xDC00 ≤ m ∧ m < 0xE000 then
            some (encodeRune (0x10000 + (n - 0xD800) * 1024 + (m - 0xDC00)), rest')
          else some (encodeRune 0xFFFD, rest)
        | none => some (encodeRune 0xFFFD, rest)
      | _ => some (encodeRune 0xFFFD, rest)
    else some (encodeRune n, rest)

/-- The escape sequence after a backslash. -/
def parseEscape : Parser Bytes
  | [] => none
  | c :: rest =>
    if c = 34 ∨ c = 92 ∨ c = 47 then some ([c], rest)
    else if c = 98 then some ([8], rest)
    else if c = 102 then some ([12], rest)
    else if c = 110 then some ([10], rest)
    else if c = 114 then some ([13], rest)
    else if c = 116 then some ([9], rest)
    else if c = 117 then parseUnicode rest
    else none

/-- The characters of a literal after its opening quote, to the closing one. -/
def parseChars : (fuel : Nat) → Parser Bytes
  | 0, _ => none
  | _ + 1, [] => none
  | fuel + 1, c :: rest =>
    if c = 34 then some ([], rest)
    else if c = 92 then
      match parseEscape rest with
      | none => none
      | some (r, rest') => (parseChars fuel rest').map fun (s, out) => (r ++ s, out)
    else if c.toNat < 32 then none
    else match runeLen (c :: rest) with
      | none => (parseChars fuel rest).map fun (s, out) => ([0xEF, 0xBF, 0xBD] ++ s, out)
      | some k =>
        (parseChars fuel ((c :: rest).drop k)).map fun (s, out) => ((c :: rest).take k ++ s, out)

def parseString : Parser Bytes
  | 34 :: rest => parseChars rest.length rest
  | _ => none

/-! ## The string round trip -/

theorem hexVal_hexDigit (h : n < 16) : hexVal (hexDigit n) = some n := by
  have hall : ∀ n : Fin 16, hexVal (hexDigit n.val) = some n.val := by decide
  exact hall ⟨n, h⟩

theorem parseHex4_digits {a b c : Nat} (ha : a < 16) (hb : b < 16) (hc : c < 16) (hd : d < 16)
    (rest : Bytes) :
    parseHex4 (hexDigit a :: hexDigit b :: hexDigit c :: hexDigit d :: rest)
      = some (a * 4096 + b * 256 + c * 16 + d, rest) := by
  simp [parseHex4, hexVal_hexDigit ha, hexVal_hexDigit hb, hexVal_hexDigit hc, hexVal_hexDigit hd]

/-- The `\u00xx` escape of an octet reads back to it. -/
theorem parseEscape_hex (hc : c.toNat < 0x80) (t : Bytes) :
    parseEscape ((escapeHex c).tail ++ t) = some ([c], t) := by
  have h4 := parseHex4_digits (a := 0) (b := 0) (c := c.toNat / 16) (d := c.toNat % 16)
    (by omega) (by omega) (by omega) (by omega) t
  have hzero : hexDigit 0 = 48 := by decide
  rw [hzero, show 0 * 4096 + 0 * 256 + c.toNat / 16 * 16 + c.toNat % 16 = c.toNat by omega] at h4
  have hsurr : ¬(0xD800 ≤ c.toNat ∧ c.toNat < 0xE000) := by omega
  simp only [escapeHex, List.tail_cons, List.cons_append, List.nil_append, parseEscape]
  simp only [parseUnicode, h4, if_neg hsurr, encodeRune, if_pos hc, UInt8.ofNat_toNat]
  simp

/-- Reading the escape of one ASCII octet yields that octet. -/
theorem parseChars_escapeAscii (hc : c.toNat < 0x80) (fuel : Nat) (t : Bytes) :
    parseChars (fuel + 1) (escapeAscii c ++ t)
      = (parseChars fuel t).map fun (s, out) => (c :: s, out) := by
  unfold escapeAscii
  split_ifs with h1 h2 h3 h4 h5 h6 h7
  · rcases h1 with rfl | rfl <;> simp [parseChars, parseEscape]
  · subst h2; simp [parseChars, parseEscape]
  · subst h3; simp [parseChars, parseEscape]
  · subst h4; simp [parseChars, parseEscape]
  · subst h5; simp [parseChars, parseEscape]
  · subst h6; simp [parseChars, parseEscape]
  · have hesc := parseEscape_hex hc t
    rw [show escapeHex c = 92 :: (escapeHex c).tail from rfl, List.cons_append, parseChars, hesc]
    simp
  · push Not at h1 h7
    have hrune : runeLen (c :: t) = some 1 := by simp [runeLen, hc]
    simp only [List.cons_append, List.nil_append, parseChars, if_neg h1.1, if_neg h1.2,
      if_neg (show ¬c.toNat < 32 by omega), hrune]
    simp

/-- Reading the rendering of one well-formed sequence yields that sequence. -/
theorem parseChars_escapeRune {r : Bytes} (hr : ∀ t, runeLen (r ++ t) = some r.length) (hshape : Rune r)
    (fuel : Nat) (t : Bytes) :
    parseChars (fuel + 1) (escapeRune r ++ t)
      = (parseChars fuel t).map fun (s, out) => (r ++ s, out) := by
  rcases hshape with ⟨c, rfl, hc⟩ | ⟨hlength, hhigh⟩
  · exact parseChars_escapeAscii hc fuel t
  · obtain ⟨c, r', rfl⟩ := List.exists_cons_of_length_pos (Nat.two_pos.trans_le hlength)
    have hc := hhigh c List.mem_cons_self
    unfold escapeRune
    split
    · rename_i heq; simp [heq] at hlength
    split_ifs with h2028 h2029
    · rw [h2028]
      simp [parseChars, parseEscape, parseUnicode, parseHex4, hexVal, encodeRune]
    · rw [h2029]
      simp [parseChars, parseEscape, parseUnicode, parseHex4, hexVal, encodeRune]
    · have h34 : c ≠ 34 := by rintro rfl; simp at hc
      have h92 : c ≠ 92 := by rintro rfl; simp at hc
      have hrune := hr t
      rw [List.cons_append] at hrune
      simp only [List.cons_append, parseChars, if_neg h34, if_neg h92,
        if_neg (show ¬c.toNat < 32 by omega), hrune]
      simp

theorem parseChars_quote (fuel : Nat) (rest : Bytes) :
    parseChars (fuel + 1) (34 :: rest) = some ([], rest) := by
  simp [parseChars]

/-- Unfolding one recognised sequence of a rendering. -/
theorem renderChars_rune {k : Nat} (h : runeLen s = some k) (fuel : Nat) :
    renderChars (fuel + 1) s = escapeRune (s.take k) ++ renderChars fuel (s.drop k) := by
  cases s with
  | nil => simp [runeLen] at h
  | cons c rest => simp [renderChars, h]

/-- The body of a literal reads back to the string it renders. Induction along the sequences of the
string; `n` bounds the sequences left, `m` the reading fuel. -/
theorem parseChars_renderChars (hs : Utf8 s) :
    ∀ {n m : Nat}, s.length ≤ n → s.length < m → ∀ rest,
      parseChars m (renderChars n s ++ 34 :: rest) = some (s, rest) := by
  induction hs with
  | nil =>
    intro n m _ hm rest
    obtain ⟨m, rfl⟩ : ∃ m', m = m' + 1 := ⟨m - 1, by omega⟩
    have hnil : renderChars n ([] : Bytes) = [] := by cases n <;> rfl
    rw [hnil, List.nil_append, parseChars_quote]
  | @rune s k hrune _ ih =>
    intro n m hn hm rest
    obtain ⟨r, t, rfl, hlen, hpre, hshape⟩ := runeLen_some hrune
    have hpos := hshape.length_pos
    simp only [List.length_append] at hn hm
    obtain ⟨n, rfl⟩ : ∃ n', n = n' + 1 := ⟨n - 1, by omega⟩
    obtain ⟨m, rfl⟩ : ∃ m', m = m' + 1 := ⟨m - 1, by omega⟩
    subst hlen
    simp only [List.drop_left] at ih
    rw [renderChars_rune hrune, List.take_left, List.drop_left, List.append_assoc,
      parseChars_escapeRune hpre hshape, ih (by omega) (by omega)]
    simp

theorem length_le_escapeRune (r : Bytes) : r.length ≤ (escapeRune r).length := by
  unfold escapeRune
  split
  · unfold escapeAscii
    split_ifs <;> simp [escapeHex]
  · split_ifs with h2028 h2029
    · simp [h2028]
    · simp [h2029]
    · exact le_rfl

/-- A rendering is no shorter than the string, so the reader's fuel suffices. -/
theorem length_le_renderChars (hs : Utf8 s) :
    ∀ {n : Nat}, s.length ≤ n → s.length ≤ (renderChars n s).length := by
  induction hs with
  | nil => intro n _; simp
  | @rune s k hrune _ ih =>
    intro n hn
    obtain ⟨r, t, rfl, hlen, _, hshape⟩ := runeLen_some hrune
    have hpos := hshape.length_pos
    simp only [List.length_append] at hn ⊢
    obtain ⟨n, rfl⟩ : ∃ n', n = n' + 1 := ⟨n - 1, by omega⟩
    subst hlen
    simp only [List.drop_left] at ih
    rw [renderChars_rune hrune, List.take_left, List.drop_left, List.length_append]
    have hhead := length_le_escapeRune r
    have htail := ih (n := n) (by omega)
    omega

/-- **A literal reads back to the string it was written from.** -/
theorem parseString_renderString (hs : Utf8 s) (rest : Bytes) :
    parseString (renderString s ++ rest) = some (s, rest) := by
  have hlen := length_le_renderChars hs le_rfl
  simp only [renderString, List.cons_append, List.append_assoc, List.nil_append, parseString]
  apply parseChars_renderChars hs le_rfl
  simp only [List.length_append, List.length_cons]
  omega

/-- A printable ASCII octet that a literal holds as it is. -/
def Plain (c : UInt8) : Prop :=
  32 ≤ c.toNat ∧ c.toNat < 0x80 ∧ c ≠ 34 ∧ c ≠ 92 ∧ c ≠ 38 ∧ c ≠ 60 ∧ c ≠ 62

theorem escapeAscii_plain (h : Plain c) : escapeAscii c = [c] := by
  obtain ⟨hlo, _, h34, h92, h38, h60, h62⟩ := h
  have hctl : ∀ d : UInt8, d.toNat < 32 → c ≠ d := by rintro d hd rfl; omega
  have h7 : ¬(c.toNat < 32 ∨ c = 60 ∨ c = 62 ∨ c = 38) := by
    rintro (hlt | rfl | rfl | rfl)
    · omega
    · exact h60 rfl
    · exact h62 rfl
    · exact h38 rfl
  unfold escapeAscii
  rw [if_neg (by simp [h34, h92]), if_neg (hctl 8 (by decide)), if_neg (hctl 12 (by decide)),
    if_neg (hctl 10 (by decide)), if_neg (hctl 13 (by decide)), if_neg (hctl 9 (by decide)),
    if_neg h7]

/-- Nothing is escaped in a plain string. -/
theorem renderString_plain (h : ∀ c ∈ s, Plain c) : renderString s = 34 :: (s ++ [34]) := by
  have hbody : ∀ (s : Bytes), (∀ c ∈ s, Plain c) → renderChars s.length s = s := by
    intro s
    induction s with
    | nil => intro _; rfl
    | cons c rest ih =>
      intro hs
      have hc := hs c (by simp)
      have hrune : runeLen (c :: rest) = some 1 := by simp [runeLen, hc.2.1]
      rw [List.length_cons, renderChars_rune hrune]
      have htail := ih fun d hd => hs d (by simp [hd])
      simp [escapeRune, escapeAscii_plain hc, htail]
  rw [renderString, hbody s h]

theorem utf8_of_plain (h : ∀ c ∈ s, Plain c) : Utf8 s :=
  utf8_of_ascii (List.all_eq_true.mpr fun c hc => decide_eq_true (h c hc).2.1)

/-! ## Integer literals -/

def isDigit (c : UInt8) : Bool := 48 ≤ c.toNat && c.toNat ≤ 57

/-- The decimal digits of `n`, most significant first. -/
def renderNat (n : Nat) : Bytes :=
  if n = 0 then [48] else ((Nat.digits 10 n).reverse).map fun d => UInt8.ofNat (48 + d)

def renderInt : Int → Bytes
  | .ofNat n => renderNat n
  | .negSucc n => 45 :: renderNat (n + 1)

/-- The number a run of digits denotes. -/
def digitsVal (ds : Bytes) : Nat := ds.foldl (fun acc c => acc * 10 + (c.toNat - 48)) 0

/-- A run of digits without a superfluous leading zero. -/
def parseNat : Parser Nat := fun inp =>
  match inp.takeWhile isDigit with
  | [] => none
  | [c] => some (digitsVal [c], inp.dropWhile isDigit)
  | c :: ds => if c = 48 then none else some (digitsVal (c :: ds), inp.dropWhile isDigit)

/-- An integer literal of a signed type with the range `lo .. hi`. -/
def parseInt (lo hi : Int) : Parser Int := fun inp =>
  match inp with
  | 45 :: rest =>
    match parseNat rest with
    | none => none
    | some (n, out) => if lo ≤ -(n : Int) then some (-(n : Int), out) else none
  | _ =>
    match parseNat inp with
    | none => none
    | some (n, out) => if (n : Int) ≤ hi then some ((n : Int), out) else none

/-- An integer literal of an unsigned type with maximum `hi`. -/
def parseUint (hi : Nat) : Parser Nat := fun inp =>
  match parseNat inp with
  | none => none
  | some (n, out) => if n ≤ hi then some (n, out) else none

/-- What may follow a literal inside an array or an object. -/
def Delim (rest : Bytes) : Prop := ∃ c t, rest = c :: t ∧ (c = 44 ∨ c = 93 ∨ c = 125)

theorem Delim.cons {t : Bytes} (h : c = 44 ∨ c = 93 ∨ c = 125) : Delim (c :: t) :=
  ⟨c, t, rfl, h⟩

theorem isDigit_ofNat (h : d < 10) : isDigit (UInt8.ofNat (48 + d)) = true := by
  have hall : ∀ d : Fin 10, isDigit (UInt8.ofNat (48 + d.val)) = true := by decide
  exact hall ⟨d, h⟩

theorem toNat_digit (h : d < 10) : (UInt8.ofNat (48 + d)).toNat - 48 = d := by
  rw [UInt8.toNat_ofNat', Nat.mod_eq_of_lt (by omega)]
  omega

theorem isDigit_of_mem_renderNat (h : c ∈ renderNat n) : isDigit c = true := by
  unfold renderNat at h
  split at h
  · simp only [List.mem_singleton] at h
    subst h
    decide
  · simp only [List.mem_map, List.mem_reverse] at h
    obtain ⟨d, hd, rfl⟩ := h
    exact isDigit_ofNat (Nat.digits_lt_base (by omega) hd)

theorem digitsVal_map_reverse (ds : List Nat) (h : ∀ d ∈ ds, d < 10) :
    digitsVal (ds.reverse.map fun d => UInt8.ofNat (48 + d)) = Nat.ofDigits 10 ds := by
  induction ds with
  | nil => rfl
  | cons d ds ih =>
    have hd : d < 10 := h d (by simp)
    have ih' := ih fun e he => h e (by simp [he])
    unfold digitsVal at ih' ⊢
    rw [List.reverse_cons, List.map_append, List.foldl_append, ih', Nat.ofDigits_cons]
    simp only [List.map_cons, List.map_nil, List.foldl_cons, List.foldl_nil, toNat_digit hd]
    ring

theorem digitsVal_renderNat (n : Nat) : digitsVal (renderNat n) = n := by
  unfold renderNat
  split
  · rename_i h; subst h; decide
  · rw [digitsVal_map_reverse _ fun d hd => Nat.digits_lt_base (by omega) hd,
      Nat.ofDigits_digits]

theorem renderNat_ne_nil (n : Nat) : renderNat n ≠ [] := by
  unfold renderNat
  split
  · simp
  · rename_i h
    simp [Nat.digits_ne_nil_iff_ne_zero.mpr h]

/-- No superfluous zero: a rendering of two or more digits starts with a non-zero one, the last digit of
`Nat.digits`. -/
theorem head_renderNat {d : UInt8} {ds : Bytes} (h : renderNat n = c :: d :: ds) : c ≠ 48 := by
  unfold renderNat at h
  split at h
  · simp at h
  · rename_i hn
    have hne : Nat.digits 10 n ≠ [] := Nat.digits_ne_nil_iff_ne_zero.mpr hn
    have hlast := Nat.getLast_digit_ne_zero 10 hn
    have hlt := Nat.digits_lt_base (b := 10) (by omega) (List.getLast_mem hne)
    have hhead : c = UInt8.ofNat (48 + (Nat.digits 10 n).getLast hne) := by
      have hget := congrArg List.head? h
      rw [List.head?_map, List.head?_reverse, List.getLast?_eq_some_getLast hne] at hget
      simpa [eq_comm] using hget
    intro hc
    rw [hc] at hhead
    have hnat := congrArg UInt8.toNat hhead
    rw [UInt8.toNat_ofNat', Nat.mod_eq_of_lt (by omega)] at hnat
    simp at hnat
    omega

/-- Digits without a superfluous zero are the rendering of what they denote. -/
theorem renderNat_digitsVal (hne : s ≠ []) (hdigits : ∀ c ∈ s, isDigit c = true)
    (hzero : 1 < s.length → s.head? ≠ some 48) : renderNat (digitsVal s) = s := by
  have hbytes : ∀ c ∈ s, UInt8.ofNat (48 + (c.toNat - 48)) = c ∧ c.toNat - 48 < 10 := by
    intro c hc
    have hdigit := hdigits c hc
    simp only [isDigit, Bool.and_eq_true, decide_eq_true_eq] at hdigit
    refine ⟨?_, by omega⟩
    rw [show 48 + (c.toNat - 48) = c.toNat by omega]
    exact UInt8.ofNat_toNat
  -- the digits, least significant first
  have hlist : ((s.map fun c => c.toNat - 48).reverse.reverse.map fun d => UInt8.ofNat (48 + d)) = s := by
    rw [List.reverse_reverse, List.map_map]
    exact (List.map_congr_left fun c hc => (hbytes c hc).1).trans (List.map_id _)
  have hlt : ∀ d ∈ (s.map fun c => c.toNat - 48).reverse, d < 10 := by
    intro d hd
    obtain ⟨c, hc, rfl⟩ := List.mem_map.mp (List.mem_reverse.mp hd)
    exact (hbytes c hc).2
  have hval : digitsVal s = Nat.ofDigits 10 (s.map fun c => c.toNat - 48).reverse := by
    rw [← digitsVal_map_reverse _ hlt, hlist]
  by_cases hone : s = [48]
  · rw [hone]
    rfl
  · obtain ⟨c, rest, rfl⟩ := List.exists_cons_of_ne_nil hne
    have hc : c ≠ 48 := by
      rintro rfl
      cases rest with
      | nil => exact hone rfl
      | cons d rest => exact hzero (by simp) rfl
    have hlead : c.toNat - 48 ≠ 0 := by
      intro hsub
      have hdigit := (hbytes c List.mem_cons_self).1
      rw [hsub] at hdigit
      exact hc hdigit.symm
    -- the leading digit is not zero, so these are the digits of the number
    have hdigits10 := Nat.digits_ofDigits 10 (by decide) _ hlt (by
      intro hne'
      simpa using hlead)
    have hpos : digitsVal (c :: rest) ≠ 0 := by
      intro h0
      rw [hval] at h0
      rw [h0] at hdigits10
      simp at hdigits10
    rw [renderNat, if_neg hpos, hval, hdigits10]
    exact hlist

/-- No digit follows. -/
def Stops (rest : Bytes) : Prop := ∀ c t, rest = c :: t → isDigit c = false

theorem Stops.nil : Stops [] := fun _ _ h => by cases h

theorem Delim.stops (h : Delim rest) : Stops rest := by
  obtain ⟨c, t, rfl, hc⟩ := h
  rintro c' t' heq
  cases heq
  rcases hc with rfl | rfl | rfl <;> decide

theorem takeWhile_digits {ds : Bytes} (hds : ∀ c ∈ ds, isDigit c = true) (hr : Stops rest) :
    (ds ++ rest).takeWhile isDigit = ds ∧ (ds ++ rest).dropWhile isDigit = rest := by
  rw [List.takeWhile_append_of_pos hds, List.dropWhile_append_of_pos hds]
  cases rest with
  | nil => simp
  | cons c t => simp [hr c t rfl]

/-- A rendered number reads back to it, up to what is no digit. -/
theorem parseNat_of_stops (n : Nat) (hr : Stops rest) :
    parseNat (renderNat n ++ rest) = some (n, rest) := by
  obtain ⟨htake, hdrop⟩ := takeWhile_digits (fun c hc => isDigit_of_mem_renderNat hc) hr
  have hval := digitsVal_renderNat n
  unfold parseNat
  rw [htake, hdrop]
  match hn : renderNat n with
  | [] => exact absurd hn (renderNat_ne_nil n)
  | [c] => rw [hn] at hval; simp [hval]
  | c :: d :: ds =>
    rw [hn] at hval
    simp [head_renderNat hn, hval]

theorem parseNat_renderNat (n : Nat) (hr : Delim rest) :
    parseNat (renderNat n ++ rest) = some (n, rest) := parseNat_of_stops n hr.stops

theorem parseUint_renderNat {hi : Nat} (h : n ≤ hi) (hr : Delim rest) :
    parseUint hi (renderNat n ++ rest) = some (n, rest) := by
  simp [parseUint, parseNat_renderNat n hr, h]

/-- A rendered natural number does not start with a minus sign. -/
theorem renderNat_cons (n : Nat) : ∃ c t, renderNat n = c :: t ∧ isDigit c = true := by
  match hn : renderNat n with
  | [] => exact absurd hn (renderNat_ne_nil n)
  | c :: t => exact ⟨c, t, rfl, isDigit_of_mem_renderNat (n := n) (by simp [hn])⟩

theorem parseInt_of_stops {i lo hi : Int} (hlo : lo ≤ i) (hhi : i ≤ hi) (hr : Stops rest) :
    parseInt lo hi (renderInt i ++ rest) = some (i, rest) := by
  cases i with
  | ofNat n =>
    obtain ⟨c, t, hn, hc⟩ := renderNat_cons n
    have hparse := parseNat_of_stops n hr
    have hminus : c ≠ 45 := by rintro rfl; simp [isDigit] at hc
    rw [renderInt, hn, List.cons_append] at *
    unfold parseInt
    split
    · rename_i heq; exact absurd (List.cons.inj heq).1 hminus
    · rw [hparse]
      simpa using hhi
  | negSucc n =>
    have hparse := parseNat_of_stops (n + 1) hr
    have hneg : -((n + 1 : Nat) : Int) = Int.negSucc n := rfl
    rw [renderInt, List.cons_append, parseInt, hparse]
    simp only [hneg, if_pos hlo]

theorem parseInt_renderInt {i lo hi : Int} (hlo : lo ≤ i) (hhi : i ≤ hi) (hr : Delim rest) :
    parseInt lo hi (renderInt i ++ rest) = some (i, rest) :=
  parseInt_of_stops hlo hhi hr.stops

end Wire.Json
