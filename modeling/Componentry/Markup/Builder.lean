import Componentry.Markup.Token

/-!
# Trees in the making

The sets of names that tree building refers to, and its state: nodes by number, the stack of open
elements, the formatting elements that are to be opened again, and the insertion mode. Node zero is
the root.
-/

namespace Componentry.Markup

open Text

/-! ### Elements -/

/-- A namespace. -/
inductive Space where
  | html
  | svg
  | mathml
deriving DecidableEq, Repr, Inhabited

/-- The name of an element. -/
structure Name where
  space : Space
  local_ : String
deriving DecidableEq, Repr

def Name.isIn (names : List String) (n : Name) : Bool :=
  n.space = .html && names.contains n.local_

def Name.isHtml (name : String) (n : Name) : Bool :=
  n.space = .html && n.local_ == name

def specialNames : List String := wordsOf
  "address applet area article aside base basefont bgsound blockquote body br button caption
   center col colgroup dd details dir div dl dt embed fieldset figcaption figure footer form frame
   frameset h1 h2 h3 h4 h5 h6 head header hgroup hr html iframe img input isindex li link listing
   main marquee menu meta nav noembed noframes noscript object ol p param plaintext pre script
   section select source style summary table tbody td template textarea tfoot th thead title tr
   track ul wbr xmp"

def impliedNames : List String :=
  ["dd", "dt", "li", "option", "optgroup", "p", "rb", "rp", "rt", "rtc"]

/-- Elements that only a table holds. -/
def tablePartNames : List String :=
  ["caption", "col", "colgroup", "tbody", "td", "tfoot", "th", "thead", "tr"]

def thoroughlyImpliedNames : List String :=
  impliedNames ++ tablePartNames.filter (· != "col")

def headingNames : List String := ["h1", "h2", "h3", "h4", "h5", "h6"]

/-- Elements in front of which misplaced content of a table goes. -/
def fosterNames : List String := ["table", "tbody", "tfoot", "thead", "tr"]

def Name.isFormulaText (n : Name) : Bool :=
  n.space = .mathml && (wordsOf "mi mo mn ms mtext").contains n.local_

def Name.isDrawingText (n : Name) : Bool :=
  n.space = .svg && ["foreignObject", "desc", "title"].contains n.local_

/-- What bounds a search. -/
inductive Scope where
  | usual
  | listItem
  | button
  | table
  | select
deriving DecidableEq

def Scope.bounds (s : Scope) (n : Name) : Bool :=
  let usual := n.isFormulaText || n.isDrawingText ||
    n.isIn ["applet", "caption", "html", "table", "td", "th", "marquee", "object", "template"]
  match s with
  | .usual => usual
  | .listItem => usual || n.isIn ["ol", "ul"]
  | .button => usual || n.isIn ["button"]
  | .table => n.isIn ["html", "table", "template"]
  | .select => !n.isIn ["optgroup", "option"]

def drawingNames : List String := wordsOf
  "altGlyph altGlyphDef altGlyphItem animateColor animateMotion animateTransform clipPath feBlend
   feColorMatrix feComponentTransfer feComposite feConvolveMatrix feDiffuseLighting
   feDisplacementMap feDistantLight feDropShadow feFlood feFuncA feFuncB feFuncG feFuncR
   feGaussianBlur feImage feMerge feMergeNode feMorphology feOffset fePointLight
   feSpecularLighting feSpotLight feTile feTurbulence foreignObject glyphRef linearGradient
   radialGradient textPath"

def drawingAttributes : List String := wordsOf
  "attributeName attributeType baseFrequency baseProfile calcMode clipPathUnits diffuseConstant
   edgeMode filterUnits glyphRef gradientTransform gradientUnits kernelMatrix kernelUnitLength
   keyPoints keySplines keyTimes lengthAdjust limitingConeAngle markerHeight markerUnits
   markerWidth maskContentUnits maskUnits numOctaves pathLength patternContentUnits
   patternTransform patternUnits pointsAtX pointsAtY pointsAtZ preserveAlpha preserveAspectRatio
   primitiveUnits refX refY repeatCount repeatDur requiredExtensions requiredFeatures
   specularConstant specularExponent spreadMethod startOffset stdDeviation stitchTiles
   surfaceScale systemLanguage tableValues targetX targetY textLength viewBox viewTarget
   xChannelSelector yChannelSelector zoomAndPan"

/-- Attributes outside plain markup that belong to another namespace. -/
def foreignAttributes : List String := wordsOf
  "xlink:actuate xlink:arcrole xlink:href xlink:role xlink:show xlink:title xlink:type xml:base
   xml:lang xml:space xmlns:xlink"

def respell (names : List String) (name : String) : String :=
  (names.find? fun n => n.toLower == name).getD name

def attributeName (space : Space) (name : String) : String :=
  let name := match space with
    | .svg => respell drawingAttributes name
    | .mathml => if name == "definitionurl" then "definitionURL" else name
    | .html => name
  if foreignAttributes.contains name then
    String.ofList ((name.toList.dropWhile (· != ':')).drop 1)
  else name

def foreignAttributesOf (space : Space) (attributes : List (String × String)) :
    List (String × String) :=
  attributes.map fun (n, v) => (attributeName space n, v)

/-! ### The state of tree building -/

/-- What a node is. -/
inductive NodeData where
  /-- The root, or the content of a template. -/
  | root
  /-- An element; a template holds its content elsewhere. -/
  | element (name : Name) (attributes : List (String × String)) (content : Option Nat)
  | text (s : List Char)
  | comment (s : String)
deriving Inhabited

def NodeData.name : NodeData → Name
  | .element n .. => n
  | _ => ⟨.html, ""⟩

/-- A node: what it is, its parent and its children in order. -/
structure Node where
  data : NodeData
  parent : Option Nat := none
  children : List Nat := []
deriving Inhabited

/-- What tokens are expected. -/
inductive Mode where
  | body
  | text
  | table
  | tableText
  | caption
  | columns
  | rows
  | row
  | cell
  | select
  | selectInTable
  | template
deriving DecidableEq, Repr

/-- An entry of the formatting elements. -/
inductive Formatting where
  | marker
  /-- An element and the tag it was opened with. -/
  | element (id : Nat) (tag : Tag)

/-- The state of tree building. -/
structure Builder where
  nodes : Array Node := #[⟨.element ⟨.html, "html"⟩ [] none, none, []⟩]
  /-- The open elements, innermost first; the root is last. -/
  stack : List Nat := [0]
  /-- The formatting elements, latest first. -/
  formatting : List Formatting := []
  mode : Mode := .template
  resume : Mode := .template
  /-- The modes of open templates, innermost first; the outermost is that of the whole text. -/
  templates : List Mode := [.template]
  pending : List (List Char) := []
  form : Option Nat := none
  fostering : Bool := false
  /-- A line feed right after a tag does not count. -/
  skipLine : Bool := false
  content : Content := .data

abbrev Build := StateM Builder

namespace Build

def node (id : Nat) : Build Node := return ((← get).nodes[id]?).getD default

def update (id : Nat) (f : Node → Node) : Build Unit :=
  modify fun b => { b with nodes := b.nodes.modify id f }

def create (data : NodeData) : Build Nat := do
  let id := (← get).nodes.size
  modify fun b => { b with nodes := b.nodes.push ⟨data, none, []⟩ }
  return id

def createElement (name : Name) (attributes : List (String × String)) : Build Nat := do
  if name.isHtml "template" then
    let content ← create .root
    create (.element name attributes (some content))
  else create (.element name attributes none)

def name (id : Nat) : Build Name := return (← node id).data.name

def detach (id : Nat) : Build Unit := do
  if let some p := (← node id).parent then
    update p fun n => { n with children := n.children.erase id }
    update id fun n => { n with parent := none }

/-- Adds text to the last of some nodes; false if that is no text. -/
def extendText (nodes : List Nat) (s : List Char) : Build Bool := do
  let some id := nodes.getLast? | return false
  let .text t := (← node id).data | return false
  update id fun n => { n with data := .text (t ++ s) }
  return true

def append (parent child : Nat) : Build Unit := do
  detach child
  update parent fun n => { n with children := n.children ++ [child] }
  update child fun n => { n with parent := some parent }

def appendText (parent : Nat) (s : List Char) : Build Unit := do
  unless ← extendText (← node parent).children s do append parent (← create (.text s))

def insertBefore (parent sibling child : Nat) : Build Unit := do
  detach child
  update parent fun n =>
    let (a, b) := n.children.span (· != sibling)
    { n with children := a ++ child :: b }
  update child fun n => { n with parent := some parent }

def insertTextBefore (parent sibling : Nat) (s : List Char) : Build Unit := do
  let before := (← node parent).children.takeWhile (· != sibling)
  unless ← extendText before s do insertBefore parent sibling (← create (.text s))

/-! ### The stack -/

def current : Build Nat := return (← get).stack.head?.getD 0

def currentName : Build Name := do name (← current)

def currentIs (n : String) : Build Bool := return (← currentName).isHtml n

def currentIn (ns : List String) : Build Bool := return (← currentName).isIn ns

/-- The name that decides about foreign content: at the root, that of the surroundings. -/
def adjustedName : Build Name := do
  if (← get).stack.length ≤ 1 then return ⟨.html, "template"⟩ else currentName

def pop : Build Unit := modify fun b => { b with stack := b.stack.drop 1 }

def push (id : Nat) : Build Unit := modify fun b => { b with stack := id :: b.stack }

/-- The names of the open elements, innermost first. -/
def openNames : Build (List Name) := do
  let b ← get
  return b.stack.map fun id => ((b.nodes[id]?).getD default).data.name

def hasOpen (n : String) : Build Bool := return (← openNames).any (Name.isHtml n)

/-- The first name that passes a test stands before the first that bounds the scope. -/
def inScopeWith (scope : Scope) (test : Name → Bool) : List Name → Bool
  | [] => false
  | n :: ns => test n || (!scope.bounds n && inScopeWith scope test ns)

def inScope (scope : Scope) (test : Name → Bool) : Build Bool :=
  return inScopeWith scope test (← openNames)

def nameInScope (scope : Scope) (n : String) : Build Bool := inScope scope (Name.isHtml n)

def nodeInScope (scope : Scope) (id : Nat) : Build Bool := do
  let names ← openNames
  let ids := (← get).stack
  let before := (ids.zip names).takeWhile fun p => p.1 != id
  return ids.contains id && !(before.any fun p => scope.bounds p.2)

def popWhile (test : Name → Bool) : Build Unit := do
  let names ← openNames
  let n := (names.takeWhile test).length
  modify fun b => { b with stack := b.stack.drop n }

def popThrough (test : Name → Bool) : Build Unit := do
  popWhile fun n => !test n
  pop

def popThroughName (n : String) : Build Unit := popThrough (Name.isHtml n)

def impliedEnds (names : List String) : Build Unit := popWhile (Name.isIn names)

def impliedEndsExcept (n : String) : Build Unit := impliedEnds (impliedNames.filter (· != n))

/-- Closes an element with all whose end it implies. -/
def closeElement (n : String) : Build Unit := do
  impliedEnds impliedNames
  popThroughName n

/-- Closes an element, but no other of its name before it. -/
def closeInnermost (n : String) : Build Unit := do
  impliedEndsExcept n
  popThroughName n

def closeParagraph : Build Unit := do
  if ← nameInScope .button "p" then closeInnermost "p"

def removeFromStack (id : Nat) : Build Unit :=
  modify fun b => { b with stack := b.stack.erase id }

/-! ### Insertion -/

/-- A place for a new node. -/
inductive Spot where
  | last (parent : Nat)
  | before (parent sibling : Nat)

/-- Where content in front of a table goes: into the innermost template, or before the innermost
table if that has a parent, or into the element outside it. -/
def fosterSpot : List Nat → Build Spot
  | [] => return .last 0
  | id :: rest => do
    match (← node id).data with
    | .element n _ content =>
      if n.isHtml "template" then return .last (content.getD id)
      if n.isHtml "table" then
        match (← node id).parent with
        | some p => return .before p id
        | none => return .last (rest.head?.getD 0)
      fosterSpot rest
    | _ => fosterSpot rest

def spotIn (target : Nat) : Build Spot := do
  if (← get).fostering && (← name target).isIn fosterNames then fosterSpot (← get).stack
  else match (← node target).data with
    | .element _ _ (some content) => return .last content
    | _ => return .last target

def place (spot : Spot) (id : Nat) : Build Unit :=
  match spot with
  | .last p => append p id
  | .before p s => insertBefore p s id

def addText (s : List Char) : Build Unit := do
  match ← spotIn (← current) with
  | .last p => appendText p s
  | .before p sib => insertTextBefore p sib s

def addComment (s : String) : Build Unit := do
  let spot ← spotIn (← current)
  place spot (← create (.comment s))

def addElement (space : Space) (tag : Tag) : Build Nat := do
  let id ← createElement ⟨space, tag.name⟩ tag.attributes
  place (← spotIn (← current)) id
  return id

def insert (tag : Tag) : Build Unit := do
  push (← addElement .html tag)

def insertClosed (tag : Tag) : Build Unit := do
  let _ ← addElement .html tag

/-- Adds an element that no tag asked for, and opens it. -/
def insertImplied (n : String) : Build Unit := insert ⟨n, [], false⟩

/-! ### Formatting elements -/

def mark : Build Unit := modify fun b => { b with formatting := .marker :: b.formatting }

/-- The entries since the last mark. -/
def sinceMark : List Formatting → List (Nat × Tag)
  | .element id tag :: rest => (id, tag) :: sinceMark rest
  | _ => []

/-- Forgets the entries up to the last mark, the mark included. -/
def clearToMark : Build Unit := modify fun b =>
  { b with formatting := (b.formatting.dropWhile fun
      | .marker => false
      | _ => true).drop 1 }

def Formatting.isFor (id : Nat) : Formatting → Bool
  | .element i _ => i == id
  | .marker => false

def forget (id : Nat) : Build Unit := modify fun b =>
  { b with formatting := b.formatting.filter fun f => !Formatting.isFor id f }

/-- Another element takes the place of a formatting element. -/
def renew (id new : Nat) (tag : Tag) : Build Unit := modify fun b =>
  { b with formatting := b.formatting.map fun f =>
      if Formatting.isFor id f then .element new tag else f }

/-- Two tags are alike: one name, and the same attributes in any order. -/
def alike (a b : Tag) : Bool :=
  a.name == b.name &&
    a.attributes.length == b.attributes.length &&
    a.attributes.all b.attributes.contains

/-- Opens a formatting element; of more than three alike, the earliest is forgotten. -/
def insertFormatting (tag : Tag) : Build Unit := do
  let same := (sinceMark (← get).formatting).filter fun e => alike tag e.2
  if same.length ≥ 3 then
    if let some (id, _) := same.getLast? then forget id
  let id ← addElement .html tag
  push id
  modify fun b => { b with formatting := .element id tag :: b.formatting }

/-- Opens again the formatting elements since the last that is open or a mark. -/
def reopen : Build Unit := do
  let b ← get
  let closed := b.formatting.takeWhile fun
    | .marker => false
    | .element id _ => !b.stack.contains id
  for entry in closed.reverse do
    match entry with
    | .element id tag =>
      let new ← addElement .html tag
      push new
      renew id new tag
    | .marker => pure ()

def modeFor : List Name → List Mode → Mode
  | [], templates | [_], templates => templates.head?.getD .body
  | n :: rest, templates =>
    if n.space ≠ .html then modeFor rest templates
    else match n.local_ with
      | "select" =>
        let bound := rest.find? fun a => a.isIn ["template", "table"]
        if bound.any (Name.isHtml "table") then .selectInTable else .select
      | "td" | "th" => .cell
      | "tr" => .row
      | "tbody" | "thead" | "tfoot" => .rows
      | "caption" => .caption
      | "colgroup" => .columns
      | "table" => .table
      | "template" => templates.head?.getD .body
      | _ => modeFor rest templates

def neededMode : Build Mode := return modeFor (← openNames) (← get).templates

def setMode (m : Mode) : Build Unit := modify fun b => { b with mode := m }

def resetMode : Build Unit := do setMode (← neededMode)

end Build

end Componentry.Markup
