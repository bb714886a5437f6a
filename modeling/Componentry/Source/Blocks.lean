import Componentry.Style.Region

/-!
# Blocks of a unit

A unit is split into its template, its script, its style regions and its route. What belongs to the
template is blanked out before the script is looked for, and what belongs to the script before the
rest is, so that tags in the text of one block are never taken for another block. All places are
counted in characters of the unit.
-/

namespace Componentry.Source

open Text

/-! ### Attributes of region tags

Attributes of script and style tags may be quoted or not, or stand without a value; those of route
tags are names with a value in double quotes. Anything else is passed over. -/

/-- Characters of attribute names, in either case. -/
def isAttributeChar (c : Char) : Bool :=
  let c := foldCase c
  c.isLower || c.isDigit || [':', '_', '@', '.', '-'].contains c

variable (s : List Char)

def lowerName : String :=
  String.ofList (s.map fun c => if c.val == 0x212A then 'k' else c.toLower)

/-- A value between two quotes, and what follows. -/
def quotedValue? (quote : Char) : List Char → Option (List Char × List Char)
  | [] => none
  | c :: cs => if c == quote then splitOnce [quote] cs else none

/-- Characters of values without quotes. -/
def isBareChar (c : Char) : Bool := c != '>' && !isBlank c && c != '"' && c != '\x27'

/-- A value without quotes, and what follows. -/
def bareValue? : Option (List Char × List Char) :=
  match s.takeWhile isBareChar with
  | [] => none
  | value => some (value, s.dropWhile isBareChar)

/-- What follows an equals sign with any blanks around it. -/
def afterEquals? : Option (List Char) :=
  match afterBlanks s with
  | '=' :: rest => some (afterBlanks rest)
  | _ => none

/-- The value after a name, and what follows. -/
def valueAt : Option (List Char × List Char) := do
  let s ← afterEquals? s
  ((quotedValue? '"' s).orElse fun _ => quotedValue? '\x27' s).orElse fun _ => bareValue? s

/-- The value of an attribute that stands alone. -/
def presentValue : String := "true"

/-- The attributes in a text, each with its value; at most `fuel` characters remain. -/
def attributesFrom : Nat → List Char → List (String × String)
  | 0, _ | _, [] => []
  | fuel + 1, c :: cs =>
    if isAttributeChar c then
      let name := (c :: cs).takeWhile isAttributeChar
      let rest := (c :: cs).dropWhile isAttributeChar
      match valueAt rest with
      | some (value, rest) =>
        (lowerName name, String.ofList value) :: attributesFrom fuel rest
      | none => (lowerName name, presentValue) :: attributesFrom fuel rest
    else attributesFrom fuel cs

/-- The attributes of a script or style tag; of several with one name the last counts. -/
def attributes : Dictionary String :=
  .ofList (attributesFrom s.length s)

def isRouteNameStart (c : Char) : Bool := c.isAlpha || c == '_' || c == ':'

def isRouteNameChar (c : Char) : Bool := isRouteNameStart c || c.isDigit || c == '-' || c == '.'

def routeAttributeAt : List Char → Option ((String × String) × List Char)
  | [] => none
  | c :: cs => do
    guard (isRouteNameStart c)
    let name := c :: cs.takeWhile isRouteNameChar
    let s ← afterEquals? (cs.dropWhile isRouteNameChar)
    let (value, rest) ← quotedValue? '"' s
    return ((String.ofList name, String.ofList value), rest)

def routeAttributesFrom : Nat → List Char → List (String × String)
  | 0, _ | _, [] => []
  | fuel + 1, c :: cs =>
    match routeAttributeAt (c :: cs) with
    | some (entry, rest) => entry :: routeAttributesFrom fuel rest
    | none => routeAttributesFrom fuel cs

/-- The attributes of a route tag; of several with one name the last counts. -/
def routeAttributes (s : List Char) : Dictionary String :=
  .ofList (routeAttributesFrom s.length s)

/-! ### Components used in a template -/

/-- Characters of the tags of components. -/
def isChildChar (c : Char) : Bool := c.isLower || c.isDigit || c == '-'

/-- What may follow the tag in an opening tag. -/
def endsChild (s : List Char) : Bool := s.head?.any fun c => isBlank c || c == '/' || c == '>'

/-- A component that opens at the start of a text: its tag, and what follows the character that ends
the tag. -/
def childAt (s : List Char) : Option (String × List Char) := do
  let s ← dropLead? ['<'] s
  let tag := s.takeWhile isChildChar
  let rest := s.dropWhile isChildChar
  guard (tag.head?.any Char.isLower && tag.contains '-' && endsChild rest)
  return (String.ofList tag, rest.drop 1)

/-- The tags of components that open in a text, as often as they do; at most `fuel` characters
remain. -/
def childUses : Nat → List Char → List String
  | 0, _ | _, [] => []
  | fuel + 1, c :: cs =>
    match childAt (c :: cs) with
    | some (tag, rest) => tag :: childUses fuel rest
    | none => childUses fuel cs

/-- The values of a list, each where it first occurs. -/
def distinct {α : Type} [BEq α] : List α → List α
  | [] => []
  | a :: rest => a :: (distinct rest).filter (· != a)

/-- The tags of the components that a template uses, in order of first use. -/
def childTags (template : String) : List String :=
  distinct (childUses template.length template.toList)

/-! ### Blocks -/

/-- The script of a unit. -/
structure Script where
  content : String
  attributes : Dictionary String
  line : Nat
deriving DecidableEq, Repr

namespace Script

def lang (s : Script) : String := (s.attributes.find? "lang").getD "js"

def isTyped (s : Script) : Bool := ["ts", "tsx", "typescript"].contains s.lang

end Script

/-- The blocks of a unit. -/
structure Blocks where
  template : String := ""
  templateLine : Nat := 1
  script : Option Script := none
  styles : List Style.Region := []
  route : Option (Dictionary String) := none
deriving DecidableEq, Repr

/-- The text of the script; empty if there is none. -/
def Blocks.scriptText (b : Blocks) : String := (b.script.map (·.content)).getD ""

/-- A stretch of a text: its first place and the place after it. -/
structure Span where
  start : Nat
  stop : Nat
deriving DecidableEq, Repr, Inhabited

def Span.cut (p : Span) (s : List Char) : List Char := (s.drop p.start).take (p.stop - p.start)

/-- Blanks out a stretch; line feeds stay. -/
def mask (p : Span) (s : List Char) : List Char :=
  s.zipIdx.map fun (c, i) => if p.start ≤ i && i < p.stop && c != '\n' then ' ' else c

/-- The text of a stretch of a masked text. A character that was blanked out leaves as many blanks
as it has bytes. -/
def Span.cutMasked (p : Span) (source masked : List Char) : List Char :=
  ((p.cut source).zip (p.cut masked)).flatMap fun (c, m) =>
    if m == ' ' then List.replicate c.utf8Size ' ' else [m]

def lineAt (s : List Char) (place : Nat) : Nat := newlines (s.take place) + 1

/-- The text of a block without blanks around it, and the line it starts on. -/
def content (source : List Char) (p : Span) : String × Nat :=
  let text := p.cut source
  let skipped := text.takeWhile isBlank
  (String.ofList (trim text), lineAt source p.start + newlines skipped)

/-! ### Tags -/

/-- What follows the attributes of an opening tag, whose name was just read, up to and including its
end; and how many characters the attributes take. -/
def tagEnd? (s : List Char) : Option (Nat × List Char) :=
  match s with
  | '>' :: rest => some (0, rest)
  | c :: cs =>
    if isBlank c then
      match cs.dropWhile (· != '>') with
      | _ :: rest => some (s.length - rest.length - 1, rest)
      | [] => none
    else none
  | [] => none

/-- An opening or closing template tag. -/
structure TemplateTag where
  closing : Bool
  span : Span
deriving DecidableEq, Repr

/-- A template tag at the start of a text: whether it closes, and what follows. -/
def templateTagAt (s : List Char) : Option (Bool × List Char) := do
  let s ← dropLead? ['<'] s
  let closing := s.head? == some '/'
  let s ← dropLeadFold? "template".toList (if closing then s.drop 1 else s)
  let (_, rest) ← tagEnd? s
  return (closing, rest)

def templateTagsFrom : Nat → Nat → List Char → List TemplateTag
  | 0, _, _ | _, _, [] => []
  | fuel + 1, place, c :: cs =>
    match templateTagAt (c :: cs) with
    | some (closing, rest) =>
      let stop := place + (cs.length + 1 - rest.length)
      ⟨closing, ⟨place, stop⟩⟩ :: templateTagsFrom fuel stop rest
    | none => templateTagsFrom fuel (place + 1) cs

def templateTags (s : List Char) : List TemplateTag := templateTagsFrom s.length 0 s

def templateEnd? : Nat → List TemplateTag → Option Span
  | _, [] => none
  | depth, t :: rest =>
    if !t.closing then templateEnd? (depth + 1) rest
    else if depth ≤ 1 then some t.span
    else templateEnd? (depth - 1) rest

/-- The first template, whole and without its tags; templates inside it belong to it. -/
def templateRegion? (s : List Char) : Option (Span × Span) :=
  match (templateTags s).dropWhile (·.closing) with
  | [] => none
  | first :: rest =>
    (templateEnd? 1 rest).map fun last =>
      (⟨first.span.start, last.stop⟩, ⟨first.span.stop, last.start⟩)

/-- A region found by its tags. -/
structure Region where
  whole : Span
  attributes : Span
  inner : Span
deriving DecidableEq, Repr

/-- The text up to a closing tag, whose name is given in lower case, and what follows the tag. -/
def upToClosing? (name : List Char) (s : List Char) : Option (Nat × List Char) :=
  let closing := ['<', '/'] ++ name ++ ['>']
  match breakAt (fun s => (dropLeadFold? closing s).isSome) s with
  | some (inner, rest) => some (inner.length, rest.drop closing.length)
  | none => none

/-- A region at a place: an opening tag, and everything up to the next closing tag. -/
def regionAt (name : List Char) (place : Nat) (s : List Char) : Option (Region × List Char) := do
  let afterName ← dropLeadFold? ('<' :: name) s
  let (taken, afterTag) ← tagEnd? afterName
  let (length, rest) ← upToClosing? name afterTag
  let start := place + name.length + 1
  let inner := start + taken + 1
  return (⟨⟨place, place + (s.length - rest.length)⟩, ⟨start, start + taken⟩,
    ⟨inner, inner + length⟩⟩, rest)

def regionsFrom (name : List Char) : Nat → Nat → List Char → List Region
  | 0, _, _ | _, _, [] => []
  | fuel + 1, place, c :: cs =>
    match regionAt name place (c :: cs) with
    | some (r, rest) => r :: regionsFrom name fuel r.whole.stop rest
    | none => regionsFrom name fuel (place + 1) cs

def regions (name : String) (s : List Char) : List Region :=
  regionsFrom name.toList s.length 0 s

/-- The attributes of a route tag: everything up to the end of the tag, where a slash counts as the
end only right before it. -/
def routeAttributesEnd : List Char → List Char
  | '/' :: c :: rest => if c == '>' then '/' :: c :: rest else routeAttributesEnd rest
  | ['/'] => ['/']
  | '>' :: rest => '>' :: rest
  | _ :: rest => routeAttributesEnd rest
  | [] => []

/-- A route tag at the start of a text: the place of its attributes. -/
def routeAt (place : Nat) (s : List Char) : Option Span := do
  let afterName ← dropLeadFold? "<route".toList s
  let atEnd := match afterName with
    | c :: rest => if isBlank c then routeAttributesEnd rest else afterName
    | [] => []
  let start := place + 6
  let found : Span := ⟨start, start + (afterName.length - atEnd.length)⟩
  match atEnd with
  | '/' :: '>' :: _ => return found
  | '>' :: rest =>
    let _ ← upToClosing? "route".toList rest
    return found
  | _ => none

/-- The attributes of the first route tag from a place on. -/
def routeFrom (place : Nat) : List Char → Option Span
  | [] => none
  | c :: cs =>
    match routeAt place (c :: cs) with
    | some p => some p
    | none => routeFrom (place + 1) cs

/-! ### Blocks -/

def blocks (options : Options) (text : String) : Blocks :=
  let source := text.toList
  let template := templateRegion? source
  let withoutTemplate := match template with
    | some (outer, _) => mask outer source
    | none => source
  let script := (regions "script" withoutTemplate).head?
  let masked := match script with
    | some r => mask r.whole withoutTemplate
    | none => withoutTemplate
  let (templateText, templateLine) := match template with
    | some (_, inner) => content source inner
    | none => ("", 1)
  { template := templateText
    templateLine
    script := script.map fun r =>
      let (content, line) := content source r.inner
      { content, line, attributes := attributes (r.attributes.cutMasked source withoutTemplate) }
    styles := (regions "style" masked).map fun r =>
      let (content, line) := content source r.inner
      .of options content (attributes (r.attributes.cutMasked source masked)) line
    route := (routeFrom 0 masked).map fun p =>
      routeAttributes (p.cutMasked source masked) }

end Componentry.Source
