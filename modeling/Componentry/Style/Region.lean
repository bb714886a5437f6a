import Componentry.Options

/-!
# Style regions and the nested dialect

The dialect has variables, rules inside rules, an ampersand for the enclosing selector, and comments
to the end of a line. It is flattened into plain style text: the declarations of a rule come first,
then the rules inside it in order. A region that does not compile is used as it stands, with a
finding.
-/

namespace Componentry.Style

open Text

/-- Why a text in the nested dialect cannot be compiled. -/
inductive StyleFault where
  | unclosedBlock
  /-- A block has nothing in front of it. -/
  | missingSelector
  | unexpectedBrace
  | undefinedVariable (name : String)
  /-- A declaration stands outside of all rules. -/
  | strayDeclaration (text : String)
deriving DecidableEq, Repr

def StyleFault.message : StyleFault → String
  | .unclosedBlock => "unclosed block: missing '\x7d'"
  | .missingSelector => "block without a selector"
  | .unexpectedBrace => "unexpected '\x7d'"
  | .undefinedVariable name => "undefined variable $" ++ name
  | .strayDeclaration text => "declaration `" ++ text ++ "` outside of a rule"

/-- A statement of the dialect. -/
inductive Statement where
  | variable (name value : List Char)
  | declaration (text : List Char)
  /-- A statement that starts with an at sign and has no block. -/
  | command (text : List Char)
  /-- A block with what stands in front of it. -/
  | rule (head : List Char) (body : List Statement)
deriving Repr

/-! ### Comments -/

/-- What follows a comment that was opened; nothing if it is not closed. -/
def afterComment : List Char → List Char
  | '*' :: '/' :: rest => rest
  | _ :: rest => afterComment rest
  | [] => []

theorem afterComment_length (s : List Char) : (afterComment s).length ≤ s.length := by
  fun_induction afterComment s <;> simp_all <;> omega

/-- A comment to the end of the line may start after this character. -/
def isBoundary (before : Option Char) : Bool :=
  before.all fun c => [' ', '\t', '\n', '\r', ';', '\x7b', '\x7d'].contains c

/-- The text from a quote on that is copied as it stands, and what follows it. -/
def quotedPart (quote : Char) : List Char → List Char × List Char
  | [] => ([], [])
  | '\\' :: c :: rest =>
    let (taken, rest) := quotedPart quote rest
    ('\\' :: c :: taken, rest)
  | c :: rest =>
    if c == quote then ([c], rest)
    else
      let (taken, rest) := quotedPart quote rest
      (c :: taken, rest)

theorem quotedPart_length (quote : Char) (s : List Char) :
    (quotedPart quote s).2.length ≤ s.length := by
  fun_induction quotedPart quote s <;> simp_all <;> omega

/-- A text without its comments. A comment to the end of the line only starts at a boundary, so that
addresses keep their slashes. -/
def withoutComments (before : Option Char) (s : List Char) : List Char :=
  match s with
  | [] => []
  | '/' :: '*' :: rest => withoutComments (some '/') (afterComment rest)
  | c :: rest =>
    if c == '"' || c == '\x27' then
      c :: (quotedPart c rest).1 ++ withoutComments (some c) (quotedPart c rest).2
    else if c == '/' && rest.head? == some '/' && isBoundary before then
      withoutComments (some '/') (rest.dropWhile (· != '\n'))
    else c :: withoutComments (some c) rest
termination_by s.length
decreasing_by
  · have := afterComment_length rest
    simp only [List.length_cons]
    omega
  · have := quotedPart_length c rest
    simp only [List.length_cons]
    omega
  · have := (List.dropWhile_sublist (p := (· != '\n')) (l := rest)).length_le
    simp only [List.length_cons]
    omega
  · simp

/-! ### Reading -/

/-- The statement in a text, if it is not blank. -/
def statementOf (raw : List Char) : List Statement :=
  match trim raw with
  | [] => []
  | '$' :: rest =>
    match splitOnce [':'] rest with
    | some (name, value) => [.variable (trim name) (trim value)]
    | none => [.declaration ('$' :: rest)]
  | '@' :: rest => [.command ('@' :: rest)]
  | text => [.declaration text]

/-- A reader of statements. Text being read is kept last character first. -/
structure Reading where
  /-- Blocks around the current one: what stands in front of the inner block, and the statements
  read before it. -/
  outer : List (List Char × List Statement) := []
  /-- Statements of the current block so far. -/
  statements : List Statement := []
  pending : List Char := []
  depth : Nat := 0
  quote : Option Char := none
  /-- The next character of a quoted part stands for itself. -/
  escaped : Bool := false
deriving Repr

namespace Reading

variable (r : Reading)

def keep (c : Char) : Reading := { r with pending := c :: r.pending }

/-- Ends the statement being read. -/
def finish : Reading :=
  { r with statements := r.statements ++ statementOf r.pending.reverse, pending := [] }

def stepQuoted (quote c : Char) : Reading :=
  if r.escaped then { r.keep c with escaped := false }
  else if c == '\\' then { r.keep c with escaped := true }
  else if c == quote then { r.keep c with quote := none }
  else r.keep c

/-- A character. Braces and semicolons count only outside of parentheses. -/
def step (c : Char) : Except StyleFault Reading :=
  match r.quote with
  | some quote => .ok (r.stepQuoted quote c)
  | none =>
    if c == '"' || c == '\x27' then .ok { r.keep c with quote := some c }
    else if c == '(' then .ok { r.keep c with depth := r.depth + 1 }
    else if c == ')' then .ok { r.keep c with depth := r.depth - 1 }
    else if r.depth != 0 then .ok (r.keep c)
    else if c == '\x7b' then
      let head := trim r.pending.reverse
      if head.isEmpty then .error .missingSelector
      else .ok { outer := (head, r.statements) :: r.outer }
    else if c == '\x7d' then
      match r.outer with
      | [] => .error .unexpectedBrace
      | (head, before) :: outer =>
        .ok { outer, statements := before ++ [.rule head r.finish.statements] }
    else if c == ';' then .ok r.finish
    else .ok (r.keep c)

end Reading

def statements (s : List Char) : Except StyleFault (List Statement) := do
  let r ← s.foldlM Reading.step {}
  if r.outer.isEmpty then return r.finish.statements
  throw .unclosedBlock

/-! ### Flattening -/

abbrev Variables := Dictionary (List Char)

def isVariableStart (c : Char) : Bool := c.isAlpha || c == '_'

def isVariableChar (c : Char) : Bool := c.isAlphanum || c == '_' || c == '-'

def substitute (vars : Variables) (s : List Char) : Except StyleFault (List Char) :=
  match s with
  | [] => .ok []
  | '$' :: c :: rest =>
    if isVariableStart c then
      let name := String.ofList (c :: rest.takeWhile isVariableChar)
      match vars.find? name with
      | none => .error (.undefinedVariable name)
      | some value => do return value ++ (← substitute vars (rest.dropWhile isVariableChar))
    else do return '$' :: (← substitute vars (c :: rest))
  | c :: rest => do return c :: (← substitute vars rest)
termination_by s.length
decreasing_by
  · have := (List.dropWhile_sublist (p := isVariableChar) (l := rest)).length_le
    simp only [List.length_cons]
    omega
  · simp
  · simp

/-- The pieces between commas that are outside of parentheses and brackets; the last piece only if
it is not empty. -/
def listPieces : Nat → List Char → List Char → List (List Char)
  | _, current, [] => [current.reverse]
  | depth, current, c :: rest =>
    if c == '(' || c == '[' then listPieces (depth + 1) (c :: current) rest
    else if c == ')' || c == ']' then listPieces (depth - 1) (c :: current) rest
    else if c == ',' && depth == 0 then current.reverse :: listPieces 0 [] rest
    else listPieces depth (c :: current) rest

def selectorList (s : List Char) : List (List Char) :=
  let pieces := (listPieces 0 [] s).map trim
  if pieces.getLast? == some [] then pieces.dropLast else pieces

def replaceParent (parent s : List Char) : List Char :=
  s.flatMap fun c => if c == '&' then parent else [c]

/-- The selectors of a rule inside rules with given selectors. -/
def resolve (parents : List (List Char)) (s : List Char) : List (List Char) :=
  let children := selectorList s
  if parents.isEmpty then children.map (replaceParent [])
  else parents.flatMap fun parent => children.map fun child =>
    if child.contains '&' then replaceParent parent child else parent ++ ' ' :: child

/-- Rules with these names after the at sign hold rules of the selector around them. -/
def conditionalNames : List String := ["media", "supports", "container", "layer", "document"]

/-- The name of a rule that starts with an at sign. -/
def atName (head : List Char) : String :=
  String.ofList ((head.dropWhile (· == '@')).takeWhile fun c => !isBlank c && c != '(')

def declarationLine (d : List Char) : List Char := ' ' :: ' ' :: d ++ [';', '\n']

/-- A block in plain style text. -/
def block (head body : List Char) : List Char :=
  head ++ [' ', '\x7b', '\n'] ++ body ++ ['\x7d', '\n']

mutual

/-- A statement as it stands, with variables replaced; variables it sets hold for what follows. -/
def verbatim (vars : Variables) : Statement → Except StyleFault (Variables × List Char)
  | .variable name value => do
    return (vars.insert (String.ofList name) (← substitute vars value), [])
  | .declaration text => do return (vars, declarationLine (← substitute vars text))
  | .command text => do return (vars, declarationLine (← substitute vars text))
  | .rule head body => do
    let (vars, inner) ← verbatimAll vars body
    return (vars, block (← substitute vars head) inner)

def verbatimAll (vars : Variables) : List Statement → Except StyleFault (Variables × List Char)
  | [] => return (vars, [])
  | s :: rest => do
    let (vars, text) ← verbatim vars s
    let (vars, more) ← verbatimAll vars rest
    return (vars, text ++ more)

end

/-- A block while it is flattened. -/
structure Flat where
  vars : Variables := .empty
  /-- Statements without a block, in order. -/
  commands : List Char := []
  declarations : List (List Char) := []
  later : List Char := []

def Flat.text (f : Flat) (parents : List (List Char)) : List Char :=
  let own := if f.declarations.isEmpty then []
    else block (joinWith [',', ' '] parents) (f.declarations.flatMap declarationLine)
  f.commands ++ own ++ f.later

mutual

def flattenOne (parents : List (List Char)) (f : Flat) : Statement → Except StyleFault Flat
  | .variable name value => do
    return { f with vars := f.vars.insert (String.ofList name) (← substitute f.vars value) }
  | .declaration text =>
    if parents.isEmpty then throw (.strayDeclaration (String.ofList text))
    else do return { f with declarations := f.declarations ++ [← substitute f.vars text] }
  | .command text => do
    return { f with commands := f.commands ++ (← substitute f.vars text) ++ [';', '\n'] }
  | .rule head body => do
    let text ← substitute f.vars head
    if head.head? == some '@' then
      let inner ←
        if conditionalNames.contains (atName text) then do
          let inner ← flattenAll parents { vars := f.vars } body
          pure (inner.text parents)
        else do
          let (_, inner) ← verbatimAll f.vars body
          pure inner
      return { f with later := f.later ++ block text inner }
    else
      let selectors := resolve parents text
      let inner ← flattenAll selectors { vars := f.vars } body
      return { f with later := f.later ++ inner.text selectors }

def flattenAll (parents : List (List Char)) (f : Flat) : List Statement → Except StyleFault Flat
  | [] => return f
  | s :: rest => do flattenAll parents (← flattenOne parents f s) rest

end

/-- Compiles a text in the nested dialect to plain style text. -/
def compile (source : String) : Except StyleFault String := do
  let ss ← statements (withoutComments none source.toList)
  let f ← flattenAll [] {} ss
  return String.ofList (trimEnd (f.text []))

/-! ### Regions -/

/-- How a region is written. -/
inductive Dialect where
  | plain
  | extended
deriving DecidableEq, Repr, Inhabited

def Dialect.word : Dialect → String
  | .plain => "plain"
  | .extended => "extended"

/-- A style region. -/
structure Region where
  content : String
  attributes : Dictionary String
  isGlobal : Bool
  dialect : Dialect
  line : Nat
deriving DecidableEq, Repr

def Region.of (options : Options) (content : String) (attributes : Dictionary String)
    (line : Nat) : Region :=
  let isExtended := (attributes.find? "lang").any options.isExtendedDialect
  { content, attributes, line
    isGlobal := attributes.entries.any fun (name, value) =>
      options.isGlobalMarker name && value != "false"
    dialect := if isExtended then .extended else .plain }

/-- Turns the text of a region into plain style text, or tells why it cannot. -/
abbrev Compiler := Region → Except String String

def nestedCompiler : Compiler := fun r => (compile r.content).mapError StyleFault.message

/-- Plain style text from all regions. -/
structure Sheets where
  scopedCss : Option String := none
  globalCss : Option String := none
  /-- Findings on regions that did not compile. -/
  diagnostics : List Diagnostic := []
deriving DecidableEq, Repr

/-- The finding on a region that did not compile. -/
def failure (index : Nat) (message : String) : Diagnostic :=
  .on .style ("style compile error (region " ++ toString index ++ "): " ++ message)

def plainText (compiler : Compiler) (index : Nat) (r : Region) : String × Option Diagnostic :=
  match r.dialect with
  | .plain => (r.content, none)
  | .extended =>
    match compiler r with
    | .ok css => (css, none)
    | .error message => (r.content, some (failure index message))

/-- Texts joined by line feeds, if there is any. -/
def joined (texts : List String) : Option String :=
  if texts.isEmpty then none else some ("\n".intercalate texts)

/-- Plain style text from all regions, in order. -/
def collect (compiler : Compiler) (regions : List Region) : Sheets :=
  let texts := regions.zipIdx.map fun (r, i) => (r, plainText compiler i r)
  let kept (isGlobal : Bool) : List String := texts.filterMap fun (r, css, _) =>
    if r.isGlobal == isGlobal && !isBlankText css then some css else none
  { scopedCss := joined (kept false)
    globalCss := joined (kept true)
    diagnostics := texts.filterMap fun (_, _, d) => d }

end Componentry.Style
