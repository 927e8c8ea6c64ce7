import Helmr.Wire.Text

/-!
# Wire — hosts and ports of URLs

What `net/url` and `net` do with the host of a URL. `url.Parse` is a parameter: `Splitter` says of it that it finds a
plain host where there is nothing else, and that brackets are for IPv6 addresses, which have colons. The methods
`Hostname` and `Port` cut a host at its last colon (`splitHostPort_append`, `splitHostPort_plain`).
-/

namespace Wire.Url

open Wire

def colon : UInt8 := 0x3A

def openBracket : UInt8 := 0x5B

def closeBracket : UInt8 := 0x5D

def percent : UInt8 := 0x25

/-! ## Hosts -/

/-- The two parts around the last colon. -/
def cutLast : Bytes → Option (Bytes × Bytes)
  | [] => none
  | c :: rest =>
    match cutLast rest with
    | some (before, after) => some (c :: before, after)
    | none => if c = colon then some ([], rest) else none

/-- What brackets are around. -/
def unbracket (host : Bytes) : Bytes :=
  if host.head? = some openBracket ∧ host.getLast? = some closeBracket then (host.drop 1).dropLast else host

/-- The host and the port, which is empty where there is none or it is no number. -/
def splitHostPort (hostPort : Bytes) : Bytes × Bytes :=
  match cutLast hostPort with
  | some (host, port) => if port.all Json.isDigit then (unbracket host, port) else (unbracket hostPort, [])
  | none => (unbracket hostPort, [])

/-- `net.JoinHostPort` -/
def joinHostPort (host port : Bytes) : Bytes :=
  if colon ∈ host then [openBracket] ++ host ++ [closeBracket, colon] ++ port
  else host ++ [colon] ++ port

theorem cutLast_eq_none {s : Bytes} : cutLast s = none ↔ colon ∉ s := by
  induction s with
  | nil => exact ⟨fun _ => List.not_mem_nil, fun _ => rfl⟩
  | cons c s ih =>
    rw [cutLast, List.mem_cons, not_or]
    cases hs : cutLast s with
    | some p =>
      obtain ⟨before, after⟩ := p
      have hmem : colon ∈ s := by
        by_contra hnot
        rw [ih.mpr hnot] at hs
        cases hs
      exact ⟨nofun, fun h => absurd hmem h.2⟩
    | none =>
      have hnot := ih.mp hs
      dsimp only
      split
      · next heq => exact ⟨nofun, fun h => absurd heq.symm h.1⟩
      · next heq => exact ⟨fun _ => ⟨fun h => heq h.symm, hnot⟩, fun _ => rfl⟩

theorem cutLast_append (before : Bytes) {after : Bytes} (h : colon ∉ after) :
    cutLast (before ++ colon :: after) = some (before, after) := by
  induction before with
  | nil =>
    rw [List.nil_append, cutLast, cutLast_eq_none.mpr h]
    rfl
  | cons c before ih =>
    rw [List.cons_append, cutLast, ih]

theorem unbracket_of_head {host : Bytes} (h : host.head? ≠ some openBracket) : unbracket host = host :=
  if_neg fun hboth => h hboth.1

/-- A host without a colon and a port. -/
theorem splitHostPort_append {host port : Bytes} (hport : port.all Json.isDigit = true) :
    splitHostPort (host ++ colon :: port) = (unbracket host, port) := by
  have hcolon : colon ∉ port := by
    intro hmem
    exact absurd (List.all_eq_true.mp hport colon hmem) (by decide)
  unfold splitHostPort
  rw [cutLast_append host hcolon]
  exact if_pos hport

theorem splitHostPort_plain {host : Bytes} (hcolon : colon ∉ host) : splitHostPort host = (unbracket host, []) := by
  unfold splitHostPort
  rw [cutLast_eq_none.mpr hcolon]

/-! ## URLs -/

structure URL where
  scheme : Bytes
  opaquePart : Bytes
  user : Bool
  host : Bytes
  path : Bytes
  rawPath : Bytes
  rawQuery : Bytes
  forceQuery : Bool
  fragment : Bytes
  deriving DecidableEq, Repr

def URL.hostname (u : URL) : Bytes := (splitHostPort u.host).1

def URL.port (u : URL) : Bytes := (splitHostPort u.host).2

/-- A URL with nothing but a host. -/
def URL.ofHost (scheme host : Bytes) : URL := ⟨scheme, [], false, host, [], [], [], false, []⟩

/-- Lower-case letters, digits, periods and hyphens. -/
def isPlain (c : UInt8) : Bool :=
  (97 ≤ c.toNat && c.toNat ≤ 122) || Json.isDigit c || c == 0x2E || c == 0x2D

/-- A plain name, or one with a port. -/
def PlainHost (host : Bytes) : Prop :=
  ∃ name, name ≠ [] ∧ name.all isPlain = true ∧
    (host = name ∨ ∃ port, port ≠ [] ∧ port.all Json.isDigit = true ∧ host = name ++ colon :: port)

/-- `url.Parse` -/
structure Splitter where
  parse : Bytes → Option URL
  plain : ∀ host, PlainHost host → parse (ascii "https://" ++ host) = some (URL.ofHost (ascii "https") host)
  brackets : ∀ {raw u}, parse raw = some u → u.host.head? = some openBracket → colon ∈ u.hostname

end Wire.Url
