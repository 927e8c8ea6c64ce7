import Helmr.Wire.Bytes

/-!
# Wire — white space

Go's `strings.TrimSpace` and `bytes.TrimSpace` on byte strings.
-/

namespace Wire

/-- The UTF-8 encodings of the code points Go's `unicode.IsSpace` accepts. -/
def spaces : List Bytes :=
  [[0x09], [0x0A], [0x0B], [0x0C], [0x0D], [0x20], [0xC2, 0x85], [0xC2, 0xA0], [0xE1, 0x9A, 0x80],
    [0xE2, 0x80, 0x80], [0xE2, 0x80, 0x81], [0xE2, 0x80, 0x82], [0xE2, 0x80, 0x83],
    [0xE2, 0x80, 0x84], [0xE2, 0x80, 0x85], [0xE2, 0x80, 0x86], [0xE2, 0x80, 0x87],
    [0xE2, 0x80, 0x88], [0xE2, 0x80, 0x89], [0xE2, 0x80, 0x8A], [0xE2, 0x80, 0xA8],
    [0xE2, 0x80, 0xA9], [0xE2, 0x80, 0xAF], [0xE2, 0x81, 0x9F], [0xE3, 0x80, 0x80]]

/-- Strip any of `seps` from the head, as long as there is one; `n` bounds the rounds. -/
def trimLeft (seps : List Bytes) : (n : Nat) → Bytes → Bytes
  | 0, s => s
  | n + 1, s =>
    match seps.find? (·.isPrefixOf s) with
    | some p => trimLeft seps n (s.drop p.length)
    | none => s

/-- `strings.TrimSpace`. UTF-8 is self-synchronising, so the last code point of a string is a space
exactly when the string ends with the encoding of one. -/
def trimSpace (s : Bytes) : Bytes :=
  let left := trimLeft spaces s.length s
  (trimLeft (spaces.map List.reverse) left.length left.reverse).reverse

theorem trimLeft_suffix (seps : List Bytes) (n : Nat) (s : Bytes) : trimLeft seps n s <:+ s := by
  induction n generalizing s with
  | zero => exact List.suffix_refl s
  | succ n ih =>
    unfold trimLeft
    split
    · exact (ih _).trans (List.drop_suffix _ _)
    · exact List.suffix_refl s

end Wire
