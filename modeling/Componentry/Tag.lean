import Componentry.Path
import Componentry.Text.Scan
import Componentry.Text.Word

/-!
# Tags

The tag of a component: declared in its script, or made from the name of its file. A tag starts
with a lower-case letter and has a hyphen in it.
-/

namespace Componentry.Tag

open Text

/-- A lower-case ASCII letter or a digit. -/
def isTagChar (c : Char) : Bool :=
  c.isLower || c.isDigit

def isQuote (c : Char) : Bool :=
  c == '"' || c == '\x27' || c == '\x60'

/-- The parts of a tag after its first: a hyphen and at least one character each. -/
def tagTail : Nat → List Char → List Char × List Char
  | 0, s => ([], s)
  | fuel + 1, '-' :: s =>
    let part := s.takeWhile isTagChar
    if part.isEmpty then ([], '-' :: s)
    else
      let (more, rest) := tagTail fuel (s.drop part.length)
      ('-' :: part ++ more, rest)
  | _ + 1, s => ([], s)

/-- A whole tag at the start of a text, with at least one hyphen, and what follows. -/
def tagAt (s : List Char) : Option (List Char × List Char) :=
  match s with
  | c :: cs =>
    if c.isLower then
      let first := cs.takeWhile isTagChar
      let (tail, rest) := tagTail cs.length (cs.drop first.length)
      if tail.isEmpty then none else some (c :: first ++ tail, rest)
    else none
  | [] => none

def quotedAt : List Char → Option String
  | [] => none
  | quote :: s =>
    match tagAt s with
    | some (tag, close :: _) =>
      if isQuote quote && isQuote close then some (String.ofList tag) else none
    | _ => none

/-- `tag`, a colon or equals sign, and a quoted tag. -/
def declaredAt (before : Option Char) (s : List Char) : Option String :=
  if wordStarts before s then
    match (dropLead? "tag".toList s).map afterBlanks with
    | some (':' :: r) | some ('=' :: r) => quotedAt (afterBlanks r)
    | _ => none
  else none

def declared? (script : String) : Option String :=
  firstMatch declaredAt none script.toList

/-- What making a tag knows: the text so far, reversed, and whether a capital starts a new word. -/
structure Kebab where
  text : List Char := []
  /-- The last character was a lower-case letter or a digit. -/
  small : Bool := false

def Kebab.step (k : Kebab) (c : Char) : Kebab :=
  if c.isUpper then
    { text := c.toLower :: (if k.small then '-' :: k.text else k.text), small := false }
  else if c.isAlphanum then { text := c :: k.text, small := c.isLower || c.isDigit }
  else if !k.text.isEmpty && k.text.head? != some '-' then { text := '-' :: k.text, small := false }
  else k

/-- A name in lower case with hyphens between its words. -/
def kebab (name : List Char) : List Char :=
  let text := (name.foldl Kebab.step {}).text
  ((text.dropWhile (· == '-')).reverse).dropWhile (· == '-')

def ofName (name : String) : String :=
  let k := kebab name.toList
  if k.isEmpty then "x-component"
  else if !(k.head?.any Char.isLower) || !k.contains '-' then "x-" ++ String.ofList k
  else String.ofList k

def withoutQuery (path : String) : String :=
  String.ofList (path.toList.takeWhile (· != '?'))

def ofPath (path : String) : String :=
  ofName ((Path.stem? (withoutQuery path)).getD "component")

/-- Characters of a usable tag other than the hyphen. -/
def isValidChar (c : Char) : Bool := c.isLower || c.isDigit || c == '.' || c == '_'

/-- A tag can name a component: it starts with a lower-case letter and has a hyphen. -/
def isValid (tag : String) : Bool :=
  match tag.toList with
  | [] => false
  | c :: cs =>
    c.isLower && match cs.dropWhile isValidChar with
      | '-' :: rest => rest.all fun c => isValidChar c || c == '-'
      | _ => false

end Componentry.Tag
