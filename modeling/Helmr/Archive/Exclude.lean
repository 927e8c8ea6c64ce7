import Helmr.Lib.Regex
import Helmr.Wire.Chars
import Helmr.Wire.Space
import Helmr.Wire.Text

/-!
# Archives — excluded paths

`internal/archive` leaves out the paths that match one of the exclude patterns. A pattern is a glob; it is
turned into the source of a regular expression byte by byte. Patterns are byte strings, as in the code. Paths are
texts of characters, which is how `regexp` reads them.
-/

namespace Helmr.Archive

open Wire Wire.Json Regex

/-- The source for a pattern, between the anchors. -/
def globParts : Bytes → List Char
  | 42 :: 42 :: 47 :: rest => ['(', '?', ':', '.', '*', '/', ')', '?'] ++ globParts rest
  | 42 :: 42 :: rest => ['.', '*'] ++ globParts rest
  | 42 :: rest => ['[', '^', '/', ']', '*'] ++ globParts rest
  | 63 :: rest => ['[', '^', '/', ']'] ++ globParts rest
  | char :: rest => quoteMeta [charOf char] ++ globParts rest
  | [] => []

def globPatternSource (pattern : Bytes) : List Char := '^' :: (globParts pattern ++ ['$'])

/-- The pattern that does not compile. -/
structure PatternError where
  pattern : Bytes

def PatternError.text (cause : Bytes) (e : PatternError) : Bytes :=
  ascii "invalid tar archive exclude pattern " ++ quoted e.pattern ++ ascii ": " ++ cause

/-- `ToSlash` changes nothing where the separator is a slash. -/
def compileExcludeMatchers : List Bytes → Except PatternError (List (Re Char))
  | [] => .ok []
  | pattern :: patterns =>
    let pattern := trimSpace pattern
    if pattern = [] then compileExcludeMatchers patterns
    else
      match compile (globPatternSource pattern) with
      | some matcher => do
        let matchers ← compileExcludeMatchers patterns
        return matcher :: matchers
      | none => .error ⟨pattern⟩

/-- A path is tried as it is and as a directory. -/
def excludedRelativePath (rel : List Char) (excludeMatchers : List (Re Char)) : Bool :=
  let targets := if rel.getLast? = some '/' then [rel] else [rel, rel ++ ['/']]
  excludeMatchers.any fun matcher => targets.any matcher.matchString

end Helmr.Archive
