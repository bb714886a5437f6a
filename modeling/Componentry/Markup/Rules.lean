import Componentry.Markup.Builder

/-!
# Rules of tree building

One function for each insertion mode: what a token does, and whether it has to be looked at again
in another mode. Modes that share rules call each other's functions. The markup of a template is read
as its content, so that parts of tables may stand at the top.
-/

namespace Componentry.Markup

open Build Text

/-- What became of a token. -/
inductive Outcome where
  | done
  /-- It is to be looked at again in a mode. -/
  | again (mode : Mode)
deriving DecidableEq

def handled (r : Build Unit) : Build Outcome := do
  r
  return .done

def ignored : Build Outcome := return .done

def readText (tag : Tag) (content : Content) : Build Unit := do
  insert tag
  modify fun b => { b with resume := b.mode, mode := .text, content }

def Tag.attribute? (t : Tag) (n : String) : Option String :=
  (t.attributes.find? fun a => a.1 == n).map (·.2)

def Tag.isHidden (t : Tag) : Bool :=
  (t.attribute? "type").any fun v => v.toLower == "hidden"

/-! ### Elements that may stand anywhere -/

def metaNames : List String :=
  ["base", "basefont", "bgsound", "link", "meta", "noframes", "script", "style", "template",
   "title"]

def startMeta (tag : Tag) : Build Unit := do
  if ["base", "basefont", "bgsound", "link", "meta"].contains tag.name then insertClosed tag
  else if tag.name == "title" then readText tag (.escapable "title")
  else if tag.name == "script" then readText tag .script
  else if tag.name == "template" then
    insert tag
    mark
    modify fun b => { b with mode := .template, templates := .template :: b.templates }
  else readText tag (.raw tag.name)

def leaveTemplate : Build Unit := do
  popThroughName "template"
  clearToMark
  modify fun b => { b with templates := b.templates.drop 1 }
  resetMode

def stopTemplate : Build Unit := do
  if ← hasOpen "template" then
    impliedEnds thoroughlyImpliedNames
    leaveTemplate

/-! ### Formatting -/

/-- An end tag without rules of its own: it closes the innermost element of its name, unless a
special element is in the way. -/
def stopOther (n : String) : Build Unit := do
  let names ← openNames
  let before := names.takeWhile fun m => !m.isHtml n
  if before.length < names.length && !(before.any (Name.isIn specialNames)) then
    let depth := names.length - before.length - 1
    impliedEndsExcept n
    modify fun b => { b with stack := b.stack.drop (b.stack.length - depth) }

/-- What the inner loop of `adopt` works on: the node last moved, the stack in question, and where
the new entry goes. -/
structure Adoption where
  last : Nat
  rounds : Nat := 0
  /-- The entry after which the new one goes; none while it replaces the old one. -/
  bookmark : Option Nat := none

/-- One element between the formatting element and the furthest block: kept and copied if it is a
formatting element and not too far away, dropped from the stack otherwise. -/
def adoptBetween (block : Nat) (a : Adoption) (id : Nat) : Build Adoption := do
  let a := { a with rounds := a.rounds + 1 }
  let entry := (← get).formatting.findSome? fun
    | .element i t => if i == id then some t else none
    | .marker => none
  if a.rounds > 3 then
    forget id
    removeFromStack id
    return a
  match entry with
  | none =>
    removeFromStack id
    return a
  | some tag =>
    let new ← createElement ⟨.html, tag.name⟩ tag.attributes
    modify fun b => { b with stack := b.stack.map fun i => if i == id then new else i }
    renew id new tag
    let bookmark := if a.last == block then some new else a.bookmark
    append new a.last
    return { a with last := new, bookmark }

def insertAfter (entry : Formatting) (previous : Nat) : List Formatting → List Formatting
  | [] => [entry]
  | f :: fs =>
    if Formatting.isFor previous f then entry :: f :: fs else f :: insertAfter entry previous fs

/-- One round of closing a formatting element across blocks; false when nothing is left to do. -/
def adoptRound (n : String) : Build Bool := do
  match (sinceMark (← get).formatting).find? fun e => e.2.name == n with
  | none =>
    stopOther n
    return false
  | some (element, tag) =>
    let b ← get
    if !b.stack.contains element then
      forget element
      return false
    if !(← nodeInScope .usual element) then return false
    let names ← openNames
    let inner := (b.stack.zip names).takeWhile fun p => p.1 != element
    match (inner.filter fun p => p.2.isIn specialNames).getLast? with
    | none =>
      modify fun b => { b with stack := b.stack.drop (inner.length + 1) }
      forget element
      return false
    | some (block, _) =>
      let ancestor := ((b.stack.drop (inner.length + 1)).head?).getD 0
      let between := ((inner.map (·.1)).dropWhile (· != block)).drop 1
      let a ← between.foldlM (adoptBetween block) { last := block }
      detach a.last
      place (← spotIn ancestor) a.last
      let new ← createElement ⟨.html, tag.name⟩ tag.attributes
      for child in (← node block).children do append new child
      append block new
      let entry : Formatting := .element new tag
      modify fun b => { b with
        formatting := match a.bookmark with
          | none => b.formatting.map fun f => if Formatting.isFor element f then entry else f
          | some previous =>
            (insertAfter entry previous b.formatting).filter fun f => !Formatting.isFor element f
        stack := (b.stack.erase element).flatMap fun i => if i == block then [new, i] else [i] }
      return true

def adopt (n : String) : Build Unit := do
  let top ← current
  let isFormatting := (← get).formatting.any (Formatting.isFor top)
  if (← currentIs n) && !isFormatting then pop
  else go 8
where
  go : Nat → Build Unit
    | 0 => pure ()
    | fuel + 1 => do
      if ← adoptRound n then go fuel

/-! ### The content of elements -/

def blockNames : List String :=
  ["address", "article", "aside", "blockquote", "center", "details", "dialog", "dir", "div", "dl",
   "fieldset", "figcaption", "figure", "footer", "header", "hgroup", "main", "menu", "nav", "ol",
   "p", "section", "summary", "ul"]

def blockEndNames : List String :=
  ["button", "listing", "pre"] ++ blockNames.filter (· != "p")

def formattingNames : List String :=
  ["b", "big", "code", "em", "font", "i", "s", "small", "strike", "strong", "tt", "u"]

/-- A list item closes an earlier one that is not shut off from it. -/
def closeItem (names : List String) : Build Unit := do
  let barrier (n : Name) : Bool :=
    n.isIn specialNames && !n.isIn ["address", "div", "p"]
  let found := (← openNames).find? fun n => n.isIn names || barrier n
  if let some n := found then
    if n.isIn names then closeInnermost n.local_

def insertForeign (space : Space) (tag : Tag) : Build Unit := do
  let tag := { tag with attributes := foreignAttributesOf space tag.attributes }
  let id ← addElement space tag
  if !tag.selfClosing then push id

def startInBody (tag : Tag) : Build Unit := do
  let n := tag.name
  if n == "html" || n == "body" || n == "frameset" then pure ()
  else if metaNames.contains n then startMeta tag
  else if blockNames.contains n then
    closeParagraph
    insert tag
  else if headingNames.contains n then
    closeParagraph
    if ← currentIn headingNames then pop
    insert tag
  else if n == "pre" || n == "listing" then
    closeParagraph
    insert tag
    modify fun b => { b with skipLine := true }
  else if n == "form" then
    let inTemplate ← hasOpen "template"
    if (← get).form.isNone || inTemplate then
      closeParagraph
      insert tag
      if !inTemplate then
        let id ← current
        modify fun b => { b with form := some id }
  else if n == "li" || n == "dd" || n == "dt" then
    closeItem (if n == "li" then ["li"] else ["dd", "dt"])
    closeParagraph
    insert tag
  else if n == "plaintext" then
    closeParagraph
    insert tag
    modify fun b => { b with content := .plain }
  else if n == "button" then
    if ← nameInScope .usual "button" then closeElement "button"
    reopen
    insert tag
  else if n == "a" then
    if let some (id, _) := (sinceMark (← get).formatting).find? fun e => e.2.name == "a" then
      adopt "a"
      forget id
      removeFromStack id
    reopen
    insertFormatting tag
  else if formattingNames.contains n then
    reopen
    insertFormatting tag
  else if n == "nobr" then
    reopen
    if ← nameInScope .usual "nobr" then
      adopt "nobr"
      reopen
    insertFormatting tag
  else if n == "applet" || n == "marquee" || n == "object" then
    reopen
    insert tag
    mark
  else if n == "table" then
    closeParagraph
    insert tag
    setMode .table
  else if ["area", "br", "embed", "img", "keygen", "wbr", "input", "image"].contains n then
    reopen
    insertClosed (if n == "image" then { tag with name := "img" } else tag)
  else if ["param", "source", "track"].contains n then insertClosed tag
  else if n == "hr" then
    closeParagraph
    insertClosed tag
  else if n == "textarea" then
    readText tag (.escapable "textarea")
    modify fun b => { b with skipLine := true }
  else if n == "xmp" then
    closeParagraph
    reopen
    readText tag (.raw "xmp")
  else if n == "iframe" || n == "noembed" || n == "noscript" then readText tag (.raw n)
  else if n == "select" then
    reopen
    insert tag
    let inTable := [Mode.table, .caption, .rows, .row, .cell].contains (← get).mode
    setMode (if inTable then .selectInTable else .select)
  else if n == "optgroup" || n == "option" then
    if ← currentIs "option" then pop
    reopen
    insert tag
  else if n == "rb" || n == "rtc" then
    if ← nameInScope .usual "ruby" then impliedEnds impliedNames
    insert tag
  else if n == "rp" || n == "rt" then
    if ← nameInScope .usual "ruby" then impliedEndsExcept "rtc"
    insert tag
  else if n == "math" then insertForeign .mathml tag
  else if n == "svg" then insertForeign .svg tag
  else if n == "frame" || n == "head" || tablePartNames.contains n then pure ()
  else
    reopen
    insert tag

def stopInBody (n : String) : Build Unit := do
  if n == "template" then stopTemplate
  else if n == "body" || n == "html" then pure ()
  else if blockEndNames.contains n then
    if ← nameInScope .usual n then closeElement n
  else if n == "form" then
    if ← hasOpen "template" then
      if ← nameInScope .usual "form" then closeElement "form"
    else if let some id := (← get).form then
      modify fun b => { b with form := none }
      if ← nodeInScope .usual id then
        impliedEnds impliedNames
        removeFromStack id
  else if n == "p" then
    if !(← nameInScope .button "p") then insertImplied "p"
    closeInnermost "p"
  else if n == "li" || n == "dd" || n == "dt" then
    if ← nameInScope (if n == "li" then .listItem else .usual) n then closeInnermost n
  else if headingNames.contains n then
    if ← inScope .usual (Name.isIn headingNames) then
      impliedEnds impliedNames
      popThrough (Name.isIn headingNames)
  else if n == "a" || n == "nobr" || formattingNames.contains n then adopt n
  else if n == "applet" || n == "marquee" || n == "object" then
    if ← nameInScope .usual n then
      closeElement n
      clearToMark
  else if n == "br" then
    reopen
    insertClosed ⟨"br", [], false⟩
  else stopOther n

/-- The end of the text: open templates are closed one after another. -/
def endOfText : Build Outcome := do
  if ← hasOpen "template" then
    leaveTemplate
    return .again (← get).mode
  return .done

def inBody : Token → Build Outcome
  | .null => ignored
  | .text s => handled do
    reopen
    addText s
  | .comment s => handled (addComment s)
  | .start tag => handled (startInBody tag)
  | .stop n => handled (stopInBody n)
  | .eof => endOfText

variable (t : Token)

/-- The content of an element, in front of a table if that is where it does not belong. -/
def fostered : Build Outcome := do
  modify fun b => { b with fostering := true }
  let o ← inBody t
  modify fun b => { b with fostering := false }
  return o

/-! ### Text -/

def inText : Token → Build Outcome
  | .text s => handled (addText s)
  | .eof => do
    pop
    return .again (← get).resume
  | .stop _ => handled do
    pop
    modify fun b => { b with mode := b.resume, content := .data }
  | _ => ignored

/-! ### Tables -/

/-- A blank of markup, or a carriage return that a reference stands for. -/
def isBlankOrReturn (c : Char) : Bool := isSpace c || c == '\r'

def textInTable : Build Outcome := do
  if ← currentIn fosterNames then
    modify fun b => { b with resume := b.mode }
    return .again .tableText
  fostered t

def strayTableEnds : List String := "body" :: "html" :: tablePartNames

/-- Closes an element that is in scope. The token is looked at again then, or done with. -/
def leave (scope : Scope) (n : String) (again : Bool) : Build Outcome := do
  if ← nameInScope scope n then
    popThroughName n
    if again then return .again (← neededMode)
    resetMode
  return .done

/-- Goes on in a mode, with the token or without it. -/
def goOn (m : Mode) (again : Bool) : Build Outcome :=
  if again then return .again m else handled (setMode m)

/-- Closes elements until the innermost one bounds a table, its rows or a row. -/
def backTo (names : List String) : Build Unit :=
  popWhile fun n => !n.isIn (names ++ ["template", "html"])

def inTable : Build Outcome := do
  match t with
  | .null | .text _ => textInTable t
  | .comment s => handled (addComment s)
  | .start tag =>
    let n := tag.name
    if n == "caption" then
      backTo ["table"]
      mark
      insert tag
      handled (setMode .caption)
    else if n == "colgroup" then
      backTo ["table"]
      insert tag
      handled (setMode .columns)
    else if n == "col" then
      backTo ["table"]
      insertImplied "colgroup"
      return .again .columns
    else if n == "tbody" || n == "tfoot" || n == "thead" then
      backTo ["table"]
      insert tag
      handled (setMode .rows)
    else if n == "td" || n == "th" || n == "tr" then
      backTo ["table"]
      insertImplied "tbody"
      return .again .rows
    else if n == "table" then leave .table "table" true
    else if n == "style" || n == "script" || n == "template" then handled (startMeta tag)
    else if n == "input" && tag.isHidden then handled (insertClosed tag)
    else if n == "form" then
      if !(← hasOpen "template") && (← get).form.isNone then
        let id ← addElement .html tag
        modify fun b => { b with form := some id }
      return .done
    else fostered t
  | .stop n =>
    if n == "table" then leave .table "table" false
    else if strayTableEnds.contains n then ignored
    else if n == "template" then handled stopTemplate
    else fostered t
  | .eof => endOfText

/-- Text in a table: blank text stays, other text goes in front of the table. -/
def inTableText : Build Outcome := do
  match t with
  | .null => ignored
  | .text s => handled (modify fun b => { b with pending := b.pending ++ [s] })
  | _ =>
    let b ← get
    modify fun b => { b with pending := [] }
    if b.pending.any fun s => !s.all isBlankOrReturn then
      for s in b.pending do
        let _ ← fostered (.text s)
    else
      for s in b.pending do addText s
    return .again b.resume

def inCaption : Build Outcome := do
  let close (again : Bool) : Build Outcome := do
    if !(← nameInScope .table "caption") then return .done
    closeElement "caption"
    clearToMark
    goOn .table again
  match t with
  | .start tag => if tablePartNames.contains tag.name then close true else inBody t
  | .stop n =>
    if n == "caption" then close false
    else if n == "table" then close true
    else if strayTableEnds.contains n then ignored
    else inBody t
  | _ => inBody t

/-- A group of columns; text comes in runs that are blank or not. -/
def inColumns : Build Outcome := do
  let leave (again : Bool) : Build Outcome := do
    if !(← currentIs "colgroup") then return .done
    pop
    goOn .table again
  match t with
  | .text s => if s.all isBlankOrReturn then handled (addText s) else leave true
  | .comment s => handled (addComment s)
  | .start tag =>
    if tag.name == "html" then inBody t
    else if tag.name == "col" then handled (insertClosed tag)
    else if tag.name == "template" then handled (startMeta tag)
    else leave true
  | .stop n =>
    if n == "col" then ignored
    else if n == "template" then handled stopTemplate
    else leave (n != "colgroup")
  | .eof => endOfText
  | .null => leave true

def inRows : Build Outcome := do
  let context := ["tbody", "tfoot", "thead"]
  let leave (names : List String) (again : Bool) : Build Outcome := do
    if !(← inScope .table (Name.isIn names)) then return .done
    backTo context
    pop
    goOn .table again
  let tables := ["table", "tbody", "tfoot"]
  match t with
  | .start tag =>
    let n := tag.name
    if n == "tr" then
      backTo context
      insert tag
      handled (setMode .row)
    else if n == "th" || n == "td" then
      backTo context
      insertImplied "tr"
      return .again .row
    else if tablePartNames.contains n then leave tables true
    else inTable t
  | .stop n =>
    if context.contains n then leave [n] false
    else if n == "table" then leave tables true
    else if strayTableEnds.contains n then ignored
    else inTable t
  | _ => inTable t

def inRow : Build Outcome := do
  let leave (again : Bool) : Build Outcome := do
    if !(← nameInScope .table "tr") then return .done
    backTo ["tr"]
    pop
    goOn .rows again
  match t with
  | .start tag =>
    let n := tag.name
    if n == "th" || n == "td" then
      backTo ["tr"]
      insert tag
      setMode .cell
      handled mark
    else if tablePartNames.contains n then leave true
    else inTable t
  | .stop n =>
    if n == "tr" then leave false
    else if n == "table" then leave true
    else if ["tbody", "tfoot", "thead"].contains n then
      if ← nameInScope .table n then leave true else return .done
    else if strayTableEnds.contains n then ignored
    else inTable t
  | _ => inTable t

def inCell : Build Outcome := do
  let cells := ["td", "th"]
  let close (names through : List String) (again : Bool) : Build Outcome := do
    if !(← inScope .table (Name.isIn names)) then return .done
    impliedEnds impliedNames
    popThrough (Name.isIn through)
    clearToMark
    goOn .row again
  match t with
  | .start tag => if tablePartNames.contains tag.name then close cells cells true else inBody t
  | .stop n =>
    if cells.contains n then close [n] [n] false
    else if fosterNames.contains n then close [n] cells true
    else if strayTableEnds.contains n then ignored
    else inBody t
  | _ => inBody t

/-! ### Selections and templates -/

def inSelect : Build Outcome := do
  match t with
  | .null => ignored
  | .text s => handled (addText s)
  | .comment s => handled (addComment s)
  | .start tag =>
    let n := tag.name
    if n == "option" then
      if ← currentIs "option" then pop
      handled (insert tag)
    else if n == "optgroup" then
      if ← currentIs "option" then pop
      if ← currentIs "optgroup" then pop
      handled (insert tag)
    else if n == "select" then leave .select "select" false
    else if n == "input" || n == "keygen" || n == "textarea" then leave .select "select" true
    else if n == "script" || n == "template" then handled (startMeta tag)
    else ignored
  | .stop n =>
    if n == "optgroup" then
      let second := ((← openNames).drop 1).head?
      if (← currentIs "option") && second.any (Name.isHtml "optgroup") then pop
      if ← currentIs "optgroup" then pop
      return .done
    else if n == "option" then
      if ← currentIs "option" then pop
      return .done
    else if n == "select" then leave .select "select" false
    else if n == "template" then handled stopTemplate
    else ignored
  | .eof => endOfText

def inSelectInTable : Build Outcome := do
  let names := ["caption", "table", "tbody", "tfoot", "thead", "tr", "td", "th"]
  let close : Build Outcome := do
    popThroughName "select"
    return .again (← neededMode)
  match t with
  | .start tag => if names.contains tag.name then close else inSelect t
  | .stop n =>
    if names.contains n then
      if ← nameInScope .table n then close else return .done
    else inSelect t
  | _ => inSelect t

/-- A template: the first start tag says what it holds. -/
def inTemplate : Build Outcome := do
  let becomes (m : Mode) : Build Outcome := do
    modify fun b => { b with templates := m :: b.templates.drop 1 }
    return .again m
  match t with
  | .text _ | .comment _ => inBody t
  | .start tag =>
    let n := tag.name
    if metaNames.contains n then handled (startMeta tag)
    else if n == "col" then becomes .columns
    else if n == "tr" then becomes .rows
    else if n == "td" || n == "th" then becomes .row
    else if tablePartNames.contains n then becomes .table
    else becomes .body
  | .stop n => if n == "template" then handled stopTemplate else ignored
  | .null => ignored
  | .eof => endOfText

def inMode : Mode → Token → Build Outcome
  | .body => inBody
  | .text => inText
  | .table => inTable
  | .tableText => inTableText
  | .caption => inCaption
  | .columns => inColumns
  | .rows => inRows
  | .row => inRow
  | .cell => inCell
  | .select => inSelect
  | .selectInTable => inSelectInTable
  | .template => inTemplate

/-! ### Drawings and formulas -/

def isFormulaMarkup : Build Bool := do
  match (← node (← current)).data with
  | .element n attributes _ =>
    let encoding := (attributes.find? fun a => a.1 == "encoding").map fun a => a.2.toLower
    return n = ⟨.mathml, "annotation-xml"⟩ &&
      encoding.any fun e => e == "text/html" || e == "application/xhtml+xml"
  | _ => return false

def isForeign : Build Bool := do
  let n ← adjustedName
  if n.space = .html then return false
  let isText := match t with
    | .text _ | .null => true
    | _ => false
  let startName := match t with
    | .start tag => some tag.name
    | _ => none
  if t = .eof then return false
  if n.isFormulaText then
    if isText then return false
    if startName.any fun s => s != "mglyph" && s != "malignmark" then return false
  if n.isDrawingText then
    if isText || startName.isSome then return false
  if n = ⟨.mathml, "annotation-xml"⟩ then
    if startName == some "svg" then return false
    if isText || startName.isSome then return !(← isFormulaMarkup)
  return true

def breakoutNames : List String := wordsOf
  "b big blockquote body br center code dd div dl dt em embed h1 h2 h3 h4 h5 h6 head hr i img li
   listing menu meta nobr ol p pre ruby s small span strong strike sub sup table tt u ul var"

/-- Closes a drawing or formula down to where plain markup may stand, and looks at the token
again. -/
def breakOut : Build Outcome := do
  popWhile fun n => n.space ≠ .html && !n.isFormulaText && !n.isDrawingText
  inMode (← get).mode t

/-- An end tag in a drawing or formula: it closes the innermost element of its name; from the first
element of plain markup on, the usual rules hold. -/
def stopForeign (n : String) : List Name → Nat → Build Outcome
  | [], _ | [_], _ => return .done
  | m :: rest, passed => do
    if passed > 0 && m.space = .html then inMode (← get).mode (.stop n)
    else if m.local_.toLower == n then
      modify fun b => { b with stack := b.stack.drop (passed + 1) }
      return .done
    else stopForeign n rest (passed + 1)

def inForeign : Build Outcome := do
  match t with
  | .null => handled (addText [replacement])
  | .text s => handled (addText s)
  | .comment s => handled (addComment s)
  | .start tag =>
    let fontBreaks := tag.name == "font" &&
      tag.attributes.any fun a => ["color", "face", "size"].contains a.1
    if breakoutNames.contains tag.name || fontBreaks then breakOut t
    else
      let space := (← adjustedName).space
      let tag := if space = .svg then { tag with name := respell drawingNames tag.name } else tag
      handled (insertForeign space tag)
  | .stop n =>
    if n == "br" || n == "p" then breakOut t
    else stopForeign n (← openNames) 0
  | .eof => return .done

/-! ### Tokens -/

def settle (t : Token) : Nat → Build Unit
  | 0 => pure ()
  | fuel + 1 => do
    let o ← if ← isForeign t then inForeign t else inMode (← get).mode t
    match o with
    | .done => pure ()
    | .again m =>
      setMode m
      settle t fuel

def blankRuns (s : List Char) : List (List Char) :=
  s.splitBy fun a b => isBlankOrReturn a == isBlankOrReturn b

def process : Build Unit := do
  let b ← get
  modify fun b => { b with skipLine := false }
  let fuel := 16 + 4 * b.stack.length
  match t with
  | .text s =>
    let s := if b.skipLine && s.head? == some '\n' then s.drop 1 else s
    if s.isEmpty then pure ()
    else if b.mode = .columns then
      for run in blankRuns s do settle (.text run) fuel
    else settle (.text s) fuel
  | _ => settle t fuel

/-! ### Fragments -/

/-- A node of a fragment. -/
inductive FragmentNode where
  | element (tag : String) (attributes : List (String × String)) (children : List FragmentNode)
  | text (s : String)
  | comment (s : String)
deriving Repr

abbrev Fragment := List FragmentNode

mutual

def FragmentNode.height : FragmentNode → Nat
  | .element _ _ children => FragmentNode.heightAll children + 1
  | .text _ | .comment _ => 1

def FragmentNode.heightAll : List FragmentNode → Nat
  | [] => 0
  | n :: rest => max n.height (FragmentNode.heightAll rest)

end

/-- Reads tokens until the text ends. Markup without a token still comes between a tag and a line
feed. -/
def build : Nat → List Char → Build Unit
  | 0, _ => process .eof
  | _ + 1, [] => process .eof
  | fuel + 1, s => do
    let cdata := (← Build.adjustedName).space ≠ .html
    let (tokens, rest) := tokensAt (← get).content cdata s
    if tokens.isEmpty then modify fun b => { b with skipLine := false }
    for t in tokens do process t
    build fuel rest

def toTree (nodes : Array Node) : Nat → Nat → Option FragmentNode
  | 0, _ => none
  | fuel + 1, id =>
    let n := (nodes[id]?).getD default
    match n.data with
    | .root => none
    | .text s => some (.text (String.ofList s))
    | .comment s => some (.comment s)
    | .element name attributes content =>
      let children := match content with
        | some c => ((nodes[c]?).getD default).children
        | none => n.children
      some (.element name.local_ attributes (children.filterMap (toTree nodes fuel)))

def parse (text : String) : Fragment :=
  let s := prepared text.toList
  let (_, b) := (build (s.length + 1) s).run {}
  ((b.nodes[0]?).getD default).children.filterMap (toTree b.nodes (b.nodes.size + 1))

end Componentry.Markup
