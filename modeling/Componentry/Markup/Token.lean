import Componentry.Markup.Reference

/-!
# Tokens of markup

Tags, text and comments. What text ends with depends on the element it stands in: inside a script,
a style or a title only the matching end tag counts, and the reader is told so.
-/

namespace Componentry.Markup

open Text

/-- A start tag. -/
structure Tag where
  name : String
  /-- Its attributes in order, each name once. -/
  attributes : List (String × String)
  selfClosing : Bool
deriving DecidableEq, Repr, Inhabited

/-- A token. -/
inductive Token where
  | start (tag : Tag)
  | stop (name : String)
  | text (s : List Char)
  | null
  | comment (s : String)
  | eof
deriving DecidableEq, Repr

/-- What kind of text is being read. -/
inductive Content where
  | data
  /-- Text with references up to an end tag. -/
  | escapable (name : String)
  | raw (name : String)
  | script
  | plain
deriving DecidableEq, Repr

def isSpace (c : Char) : Bool :=
  c == '\t' || c == '\n' || c.val == 0xC || c == ' '

def replacement : Char := Char.ofNat 0xFFFD

def withoutNull (c : Char) : Char :=
  if c.val == 0 then replacement else c

def uniformLines : List Char → List Char
  | [] => []
  | '\r' :: '\n' :: cs => '\n' :: uniformLines cs
  | c :: cs => (if c == '\r' then '\n' else c) :: uniformLines cs

variable (s : List Char)

/-- The text that tokens are read from: a byte order mark at its start does not count. -/
def prepared : List Char :=
  uniformLines (match s with
    | c :: cs => if c.val == 0xFEFF then cs else s
    | [] => [])

def decode (inAttribute : Bool) : Nat → List Char → List Char
  | 0, s => s
  | _ + 1, [] => []
  | fuel + 1, '&' :: cs =>
    match referenceAt inAttribute cs with
    | some (chars, n) => chars ++ decode inAttribute fuel (cs.drop n)
    | none => '&' :: decode inAttribute fuel cs
  | fuel + 1, c :: cs => withoutNull c :: decode inAttribute fuel cs

def attributeValue : String :=
  String.ofList (decode true (s.length + 1) s)

def lowerName : String :=
  String.ofList (s.map fun c => withoutNull c.toLower)

/-- Adds an attribute unless its name is there already. -/
def addAttribute (found : List (String × String)) (name value : String) : List (String × String) :=
  if found.any fun a => a.1 == name then found else found ++ [(name, value)]

/-- The value after an equals sign and the rest; nothing if the text ends. -/
def valueAt : Option (String × List Char) :=
  match s.dropWhile isSpace with
  | [] => none
  | '>' :: cs => some ("", '>' :: cs)
  | c :: cs =>
    if c == '"' || c == '\x27' then
      let value := cs.takeWhile (· != c)
      match cs.drop value.length with
      | [] => none
      | _ :: rest => some (attributeValue value, rest)
    else
      let value := (c :: cs).takeWhile fun d => !isSpace d && d != '>'
      some (attributeValue value, (c :: cs).drop value.length)

/-- The attributes of a tag up to its end: attributes, whether it closes itself, and the rest.
Nothing if the text ends first. -/
def attributesAt : Nat → List Char → List (String × String) →
    Option (List (String × String) × Bool × List Char)
  | 0, _, _ => none
  | fuel + 1, s, found =>
    match s.dropWhile isSpace with
    | [] => none
    | '>' :: cs => some (found, false, cs)
    | '/' :: '>' :: cs => some (found, true, cs)
    | '/' :: cs => attributesAt fuel cs found
    | c :: cs =>
      let tail := cs.takeWhile fun d => !isSpace d && d != '/' && d != '>' && d != '='
      let name := lowerName (c :: tail)
      match (cs.drop tail.length).dropWhile isSpace with
      | '=' :: rest => do
        let (value, rest) ← valueAt rest
        attributesAt fuel rest (addAttribute found name value)
      | rest => attributesAt fuel rest (addAttribute found name "")

/-- A tag after its opening mark: the tag and the rest, nothing if the text ends first. -/
def tagAt : Option (Tag × List Char) :=
  let name := s.takeWhile fun c => !isSpace c && c != '/' && c != '>'
  (attributesAt (s.length + 1) (s.drop name.length) []).map fun (attributes, selfClosing, rest) =>
    ({ name := lowerName name, attributes, selfClosing }, rest)

/-- How far the end of a comment has been read. -/
inductive CommentState where
  | inside
  | dash
  | dashes
  /-- Two hyphens and an exclamation mark. -/
  | bang
deriving DecidableEq

def commentBody : CommentState → List Char → List Char → List Char × List Char
  | _, acc, [] => (acc, [])
  | .inside, acc, c :: cs =>
    if c == '-' then commentBody .dash acc cs else commentBody .inside (withoutNull c :: acc) cs
  | .dash, acc, c :: cs =>
    if c == '-' then commentBody .dashes acc cs
    else commentBody .inside (withoutNull c :: '-' :: acc) cs
  | .dashes, acc, c :: cs =>
    if c == '>' then (acc, cs)
    else if c == '!' then commentBody .bang acc cs
    else if c == '-' then commentBody .dashes ('-' :: acc) cs
    else commentBody .inside (withoutNull c :: '-' :: '-' :: acc) cs
  | .bang, acc, c :: cs =>
    if c == '>' then (acc, cs)
    else if c == '-' then commentBody .dash ('!' :: '-' :: '-' :: acc) cs
    else commentBody .inside (withoutNull c :: '!' :: '-' :: '-' :: acc) cs

/-- A comment after its opening mark. -/
def commentAt : List Token × List Char :=
  match s with
  | '>' :: cs | '-' :: '>' :: cs => ([.comment ""], cs)
  | _ =>
    let (acc, rest) := commentBody .inside [] s
    ([.comment (String.ofList acc.reverse)], rest)

/-- Anything else that is read as a comment, up to the next closing mark. -/
def bogusComment : List Token × List Char :=
  let body := s.takeWhile (· != '>')
  ([.comment (String.ofList (body.map withoutNull))], s.drop (body.length + 1))

def tagToken (token : Tag → Token) (s : List Char) : List Token × List Char :=
  (tagAt s).elim ([], []) fun (tag, rest) => ([token tag], rest)

def textTokens : List Token :=
  go [] s
where
  /-- `acc` is the run being read, reversed. -/
  go : List Char → List Char → List Token
    | acc, [] => if acc.isEmpty then [] else [.text acc.reverse]
    | acc, c :: cs =>
      if c.val == 0 then (if acc.isEmpty then [] else [.text acc.reverse]) ++ .null :: go [] cs
      else go (c :: acc) cs

def startsMarkup : List Char → Bool
  | '<' :: c :: rest => c.isAlpha || c == '!' || c == '?' || (c == '/' && !rest.isEmpty)
  | _ => false

def dropLeadCase? (lead s : List Char) : Option (List Char) :=
  if (s.take lead.length).map Char.toLower == lead then some (s.drop lead.length) else none

/-- The tokens of the markup at the start of a text. `cdata` allows character data sections. -/
def markupAt (cdata : Bool) (s : List Char) : List Token × List Char :=
  match s with
  | '<' :: '!' :: '-' :: '-' :: cs => commentAt cs
  | '<' :: '!' :: cs =>
    match dropLeadCase? "doctype".toList cs with
    | some rest => ([], (rest.dropWhile (· != '>')).drop 1)
    | none =>
      match if cdata then dropLead? "[CDATA[".toList cs else none with
      | some rest =>
        match splitOnce "]]>".toList rest with
        | some (body, rest) => (textTokens body, rest)
        | none => (textTokens rest, [])
      | none => bogusComment cs
  | '<' :: '/' :: '>' :: cs => ([], cs)
  | '<' :: '/' :: c :: cs =>
    if c.isAlpha then tagToken (.stop ·.name) (c :: cs) else bogusComment (c :: cs)
  | '<' :: '?' :: cs => bogusComment ('?' :: cs)
  | '<' :: cs => tagToken .start cs
  | cs => ([], cs)

/-- A run of text before the next markup or null character: the text reversed and the rest. -/
def dataRun : Nat → List Char → List Char → List Char × List Char
  | 0, acc, s => (acc, s)
  | _ + 1, acc, [] => (acc, [])
  | fuel + 1, acc, '&' :: cs =>
    match referenceAt false cs with
    | some (chars, n) => dataRun fuel (chars.reverse ++ acc) (cs.drop n)
    | none => dataRun fuel ('&' :: acc) cs
  | fuel + 1, acc, c :: cs =>
    if c.val == 0 || startsMarkup (c :: cs) then (acc, c :: cs) else dataRun fuel (c :: acc) cs

def endsElement (name : String) (s : List Char) : Bool :=
  match s with
  | '<' :: '/' :: cs =>
    match dropLeadCase? name.toList cs with
    | some (c :: _) => isSpace c || c == '/' || c == '>'
    | _ => false
  | _ => false

def rawRun (name : String) (s : List Char) : List Char × List Char :=
  (breakAt (endsElement name) s).getD (s, [])

/-- How deep a script is in comments and in scripts inside comments. -/
inductive ScriptState where
  | plain
  /-- After the mark that opens a comment, with this many hyphens read. -/
  | opening (dashes : Nat)
  /-- In a comment, after this many hyphens, two at most. -/
  | comment (dashes : Nat)
  /-- In a script in a comment, after this many hyphens, two at most. -/
  | nested (dashes : Nat)
deriving DecidableEq

/-- A letter run after a mark in a script: whether it is the word `script` and ends, the characters
taken with what ends it. -/
def scriptWord : Option Bool × Nat :=
  let word := s.takeWhile Char.isAlpha
  match s.drop word.length with
  | c :: _ =>
    if isSpace c || c == '/' || c == '>' then
      (some (lowerName word == "script"), word.length + 1)
    else (none, word.length)
  | [] => (none, word.length)

/-- The text of a script up to its end tag: the text reversed and the rest. -/
def scriptRun : Nat → ScriptState → List Char → List Char → List Char × List Char
  | 0, _, acc, s => (acc, s)
  | _ + 1, _, acc, [] => (acc, [])
  | fuel + 1, .plain, acc, s =>
    if endsElement "script" s then (acc, s)
    else match s with
      | '<' :: '!' :: cs => scriptRun fuel (.opening 0) ('!' :: '<' :: acc) cs
      | c :: cs => scriptRun fuel .plain (withoutNull c :: acc) cs
      | [] => (acc, [])
  | fuel + 1, .opening n, acc, c :: cs =>
    if c == '-' then
      scriptRun fuel (if n == 0 then .opening 1 else .comment 2) ('-' :: acc) cs
    else scriptRun fuel .plain acc (c :: cs)
  | fuel + 1, .comment n, acc, c :: cs =>
    if endsElement "script" (c :: cs) then (acc, c :: cs)
    else if c == '<' && cs.head?.any Char.isAlpha then
      let (script, taken) := scriptWord cs
      let state := if script == some true then ScriptState.nested 0 else .comment 0
      scriptRun fuel state ((cs.take taken).reverse ++ '<' :: acc) (cs.drop taken)
    else if c == '-' then scriptRun fuel (.comment (min 2 (n + 1))) ('-' :: acc) cs
    else if c == '>' && n == 2 then scriptRun fuel .plain ('>' :: acc) cs
    else scriptRun fuel (.comment 0) (withoutNull c :: acc) cs
  | fuel + 1, .nested n, acc, c :: cs =>
    match c, cs with
    | '<', '/' :: rest =>
      let (script, taken) := scriptWord rest
      let state := if script == some true then ScriptState.comment 0 else .nested 0
      scriptRun fuel state ((rest.take taken).reverse ++ '/' :: '<' :: acc) (rest.drop taken)
    | _, _ =>
      if c == '-' then scriptRun fuel (.nested (min 2 (n + 1))) ('-' :: acc) cs
      else if c == '>' && n == 2 then scriptRun fuel .plain ('>' :: acc) cs
      else scriptRun fuel (.nested 0) (withoutNull c :: acc) cs

/-- The text of an element that ends with its own end tag, or that end tag. -/
def elementText (name : String) (s text rest : List Char) : List Token × List Char :=
  if text.isEmpty then tagToken (fun _ => .stop name) (s.drop 2) else ([.text text], rest)

/-- The next tokens of a text that is not empty, and the rest. -/
def tokensAt (content : Content) (cdata : Bool) (s : List Char) : List Token × List Char :=
  match content with
  | .plain => ([.text (s.map withoutNull)], [])
  | .raw name =>
    let (text, rest) := rawRun name s
    elementText name s (text.map withoutNull) rest
  | .escapable name =>
    let (text, rest) := rawRun name s
    elementText name s (decode false (text.length + 1) text) rest
  | .script =>
    let (acc, rest) := scriptRun (2 * s.length + 2) .plain [] s
    elementText "script" s acc.reverse rest
  | .data =>
    match s with
    | [] => ([], [])
    | c :: cs =>
      if c.val == 0 then ([.null], cs)
      else if startsMarkup s then markupAt cdata s
      else
        let (acc, rest) := dataRun (s.length + 1) [] s
        ([.text acc.reverse], rest)

end Componentry.Markup
