import Componentry.Document.Forest
import Componentry.Json.Basic
import Componentry.Text.Scan

/-!
# Parameters of a location

A route pattern captures parts of a path, a query string gives further parameters, and both are put
into placeholders in text.
-/

namespace Componentry

open Text

abbrev Params := Dictionary String

/-- The parameters of a component. -/
structure ParamSet where
  route : Params := .empty
  query : Params := .empty
  /-- Both; where they share a name, the query counts. -/
  merged : Params := .empty
deriving DecidableEq, Repr, Inhabited

def ParamSet.toJson (p : ParamSet) : Json :=
  .object [("route", .ofDictionary p.route), ("query", .ofDictionary p.query),
    ("merged", .ofDictionary p.merged)]

namespace Params

/-! ### Route patterns -/

/-- A part of a route pattern. -/
inductive Part where
  | literal (s : List Char)
  | param (name : List Char)
deriving DecidableEq, Repr

/-- The name after a colon, and what follows it. -/
def paramAt : List Char → Option (List Char × List Char)
  | ':' :: c :: cs =>
    if isNameStart c then some (c :: cs.takeWhile isNameChar, cs.dropWhile isNameChar) else none
  | _ => none

theorem paramAt_length {s name rest : List Char} (h : paramAt s = some (name, rest)) :
    rest.length < s.length := by
  unfold paramAt at h
  split at h
  · split at h
    · have := (List.dropWhile_sublist (p := isNameChar) (l := ‹List Char›)).length_le
      simp only [Option.some.injEq, Prod.mk.injEq] at h
      rw [← h.2]
      simp only [List.length_cons]
      omega
    · simp at h
  · simp at h

/-- The parts of a pattern, literal text by the character. -/
def parts (s : List Char) : List Part :=
  match h : paramAt s with
  | some (name, rest) =>
    have := paramAt_length h
    .param name :: parts rest
  | none =>
    match s with
    | [] => []
    | c :: cs => .literal [c] :: parts cs
termination_by s.length

def names (pattern : String) : List String :=
  (parts pattern.toList).filterMap fun
    | .param name => some (String.ofList name)
    | .literal _ => none

/-- Matches a path: a parameter takes as much as it can without a slash, and a slash may follow at
the end. -/
def matchParts : List Part → List Char → Option (List (String × String))
  | [], s => if s.isEmpty || s == ['/'] then some [] else none
  | .literal l :: rest, s => (dropLead? l s).bind (matchParts rest)
  | .param name :: rest, s =>
    let longest := (s.takeWhile (· != '/')).length
    (List.range longest).reverse.findSome? fun n =>
      (matchParts rest (s.drop (n + 1))).map
        ((String.ofList name, String.ofList (s.take (n + 1))) :: ·)

def ofRoute? (pattern path : String) : Option Params :=
  (matchParts (parts pattern.toList) path.toList).map Dictionary.ofList

/-! ### Queries -/

/-- Replaces percent codes by the bytes they stand for. -/
def percentDecode : List UInt8 → List UInt8
  | 37 :: a :: b :: rest =>
    match hexValue? (Char.ofNat a.toNat), hexValue? (Char.ofNat b.toNat) with
    | some x, some y => UInt8.ofNat (x * 16 + y) :: percentDecode rest
    | _, _ => 37 :: percentDecode (a :: b :: rest)
  | c :: rest => c :: percentDecode rest
  | [] => []

/-- Decodes a name or value of a query. -/
def decode (s : List Char) : String :=
  String.ofList (ofUtf8Lossy (percentDecode (utf8 (s.map fun c => if c == '+' then ' ' else c))))

def entryOf (piece : List Char) : String × String :=
  match splitOnce ['='] piece with
  | some (name, value) => (decode name, decode value)
  | none => (decode piece, "")

/-- The parameters of a query; question marks in front are passed over. -/
def ofQuery (query : String) : Params :=
  let pieces := splitOn '&' (query.toList.dropWhile (· == '?'))
  Dictionary.ofList ((pieces.filter fun p => !p.isEmpty).map entryOf)

/-- The parameters of a location for a component with a route pattern or without. -/
def ofLocation (pattern : Option String) (location : String) : ParamSet :=
  let (path, query) := (splitOnce ['?'] location.toList).getD (location.toList, [])
  let route := (pattern.bind fun p => ofRoute? p (String.ofList path)).getD .empty
  let query := ofQuery (String.ofList query)
  { route, query, merged := route.override query }

/-! ### Placeholders -/

def isPlaceholderChar (c : Char) : Bool := isNameChar c || c == '.' || c == '-'

/-- A placeholder at the start of a text: the name, and what follows. -/
def placeholderAt (s : List Char) : Option (List Char × List Char) := do
  let inner := afterBlanks (← dropLead? ['\x7b', '\x7b'] s)
  let first ← inner.head?
  guard (isNameStart first)
  let name := first :: (inner.drop 1).takeWhile isPlaceholderChar
  let rest ← dropLead? ['\x7d', '\x7d'] (afterBlanks (inner.drop name.length))
  return (name, rest)

/-- Replaces the placeholders that have a value; at most `fuel` characters remain. -/
def fillFrom (params : Params) : Nat → List Char → List Char
  | 0, s => s
  | _ + 1, [] => []
  | fuel + 1, c :: cs =>
    match placeholderAt (c :: cs) with
    | some (name, rest) =>
      let whole := (c :: cs).take (cs.length + 1 - rest.length)
      let value := (params.find? (String.ofList name)).map String.toList
      value.getD whole ++ fillFrom params fuel rest
    | none => c :: fillFrom params fuel cs

/-- Replaces the placeholders that have a value, all at once. -/
def fill (params : Params) (text : String) : String :=
  String.ofList (fillFrom params text.length text.toList)

/-- Replaces placeholders in one text node; tells whether the text changed. A text without two opening
braces is not looked at further. -/
def fillNode (params : Params) (f : Document.Forest) (id : Document.NodeId) :
    Document.Forest × Bool :=
  match f.text? id with
  | some text =>
    if !contains ['\x7b', '\x7b'] text.toList then (f, false)
    else
      let new := params.fill text
      if new == text then (f, false) else (f.setText id new, true)
  | none => (f, false)

/-- Replaces placeholders in all text below a node; tells how many text nodes changed. -/
def fillTree (params : Params) (f : Document.Forest) (root : Document.NodeId) :
    Document.Forest × Nat :=
  if params.isEmpty then (f, 0)
  else (f.textNodes root).foldl (fun (f, n) id =>
    let (f, changed) := fillNode params f id
    (f, if changed then n + 1 else n)) (f, 0)

end Params

end Componentry
