import Helmr.Wire.Bytes

/-!
# Wire — slash-separated paths

Go's `path` package on byte strings. A path is split at its slashes; `clean` walks the elements with a
stack, as the documentation of `path.Clean` describes it.
-/

namespace Wire.Path

def slash : UInt8 := 0x2F

def dot : Bytes := [0x2E]

def dotdot : Bytes := [0x2E, 0x2E]

/-- The elements between the slashes. -/
def elements (s : Bytes) : List Bytes := s.splitOn slash

def join (es : List Bytes) : Bytes := List.intercalate [slash] es

/-- The stack of kept elements, last first, after one more. -/
def push (rooted : Bool) (stack : List Bytes) (e : Bytes) : List Bytes :=
  if e = [] ∨ e = dot then stack
  else if e = dotdot then
    match stack with
    | top :: rest => if top = dotdot then dotdot :: stack else rest
    | [] => if rooted then [] else [dotdot]
  else e :: stack

/-- `path.Clean`. -/
def clean (s : Bytes) : Bytes :=
  let rooted := s.head? = some slash
  let body := join ((elements s).foldl (push rooted) []).reverse
  if rooted then slash :: body else if body = [] then dot else body

example : clean (ascii "/a/./b//../c/") = ascii "/a/c" := by decide

example : clean (ascii "../a/..") = ascii ".." := by decide

end Wire.Path
