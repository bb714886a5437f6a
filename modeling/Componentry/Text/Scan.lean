/-!
# Blanks and small scanners

A character is blank when it has the Unicode property White_Space, everywhere in this library. A
scanner that consumes text returns what is left, so that "what is left is no longer than what was
given" bounds every loop built on it.
-/

namespace Componentry.Text

/-- Unicode White_Space: the ASCII blanks, NEL, the no-break space and the typographic spaces. -/
def isBlank (c : Char) : Bool :=
  (0x9 ≤ c.val && c.val ≤ 0xD) || c.val == 0x20 || c.val == 0x85 || c.val == 0xA0 ||
    c.val == 0x1680 || (0x2000 ≤ c.val && c.val ≤ 0x200A) || c.val == 0x2028 || c.val == 0x2029 ||
    c.val == 0x202F || c.val == 0x205F || c.val == 0x3000

variable (s : List Char)

/-- The text without its leading blanks. -/
def trimStart : List Char :=
  s.dropWhile isBlank

/-- The text without its trailing blanks. -/
def trimEnd : List Char :=
  (s.reverse.dropWhile isBlank).reverse

/-- The text without blanks at either end. -/
def trim : List Char :=
  trimEnd (trimStart s)

def allBlank : Bool :=
  s.all isBlank

/-- The maximal runs of characters that are not blank, in order. -/
def words : List (List Char) :=
  (s.splitBy fun a b => isBlank a == isBlank b).filter fun run => !allBlank run

def wordsOf (table : String) : List String :=
  (words table.toList).map String.ofList

def trimmed (s : String) : String :=
  String.ofList (trim s.toList)

def isBlankText (s : String) : Bool :=
  allBlank s.toList

/-! ### Scanners -/

/-- Case folding as patterns that ignore case see it: ASCII letters, the long s and the Kelvin
sign. -/
def foldCase (c : Char) : Char :=
  if c.val == 0x17F then 's' else if c.val == 0x212A then 'k' else c.toLower

def dropLead? : List Char → List Char → Option (List Char)
  | [], s => some s
  | _ :: _, [] => none
  | p :: ps, c :: cs => if p == c then dropLead? ps cs else none

/-- What follows `lead`, given in lower case, in a text that starts with it up to case. -/
def dropLeadFold? : List Char → List Char → Option (List Char)
  | [], s => some s
  | _ :: _, [] => none
  | p :: ps, c :: cs => if p == foldCase c then dropLeadFold? ps cs else none

/-- A text starts with `lead`. -/
def startsWith (lead s : List Char) : Bool :=
  (dropLead? lead s).isSome

/-- The text before the first place where `here` holds of what remains, and what remains there. -/
def breakAt (here : List Char → Bool) : List Char → Option (List Char × List Char)
  | [] => if here [] then some ([], []) else none
  | c :: cs =>
    if here (c :: cs) then some ([], c :: cs)
    else (breakAt here cs).map fun r => (c :: r.1, r.2)

/-- The text before the first occurrence of `mark` and the text after it. -/
def splitOnce (mark s : List Char) : Option (List Char × List Char) :=
  (breakAt (startsWith mark) s).map fun r => (r.1, r.2.drop mark.length)

/-- The first occurrence of `mark` in a text. -/
def contains (mark s : List Char) : Bool :=
  (breakAt (startsWith mark) s).isSome

/-- The pieces between the occurrences of a character; always at least one. -/
def splitOn (sep : Char) : List Char → List (List Char)
  | [] => [[]]
  | c :: cs =>
    if c == sep then [] :: splitOn sep cs
    else match splitOn sep cs with
      | [] => [[c]]
      | piece :: rest => (c :: piece) :: rest

/-- How many line feeds a text holds. -/
def newlines (s : List Char) : Nat :=
  s.count '\n'

/-- Every occurrence of `mark`, left to right and without overlap, replaced. A mark that is empty
occurs nowhere. -/
def replaceAll (mark new : List Char) (s : List Char) : List Char :=
  if mark.isEmpty then s else go s.length s
where
  /-- At most `fuel` characters remain to be looked at. -/
  go : Nat → List Char → List Char
    | 0, s => s
    | _ + 1, [] => []
    | fuel + 1, c :: cs =>
      match dropLead? mark (c :: cs) with
      | some rest => new ++ go fuel rest
      | none => c :: go fuel cs

/-- Texts joined with a separator between neighbours. -/
def joinWith (sep : List Char) : List (List Char) → List Char
  | [] => []
  | [s] => s
  | s :: rest => s ++ sep ++ joinWith sep rest

/-- The first place, left to right, where `f` finds something. It sees the character before the
place and the text from there on. -/
def firstMatch {α : Type} (f : Option Char → List Char → Option α) :
    Option Char → List Char → Option α
  | before, [] => f before []
  | before, c :: cs =>
    match f before (c :: cs) with
    | some a => some a
    | none => firstMatch f (some c) cs

def afterBlanks (s : List Char) : List Char := trimStart s

def afterSomeBlanks? : List Char → Option (List Char)
  | [] => none
  | c :: cs => if isBlank c then some (trimStart cs) else none

/-- A letter, digit or underscore, or a dollar sign: the later characters of a plain name. -/
def isNameChar (c : Char) : Bool :=
  c.isAlphanum || c == '_' || c == '$'

def isNameStart (c : Char) : Bool :=
  c.isAlpha || c == '_' || c == '$'

end Componentry.Text
