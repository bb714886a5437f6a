import Componentry.Script.Grammar.Statements

/-!
# Imports, exports and statements

What a module takes from others and gives to them, and the rule for a statement of any kind.
-/

namespace Componentry.Script

open Reader

/-! ### Imports -/

def moduleName : Reader ModuleName := do
  match ← token with
  | .word t _ => advance; return ⟨t, false⟩
  | .string v _ => advance; return ⟨v, true⟩
  | _ => fail

def Token.isModuleName : Token → Bool
  | .word .. | .string .. => true
  | _ => false

def importAttributes? : Reader (Option (List ImportAttribute)) := do
  let found := (← isWord "with") || ((← isWord "assert") && !(← onNewLine))
  if !found then return none
  advance
  some <$> between "\x7b" "\x7d" do
    commaList "\x7d" do
      let key ← moduleName
      expectMark ":"
      return ImportAttribute.mk key (← moduleSource)

/-- The parts of an import or export specifier: whether it is for a type only, the name on the
left and the name on the right. A leading `type` may itself be a name. -/
def specifierParts : Reader (Bool × ModuleName × Option ModuleName) := do
  let aliased (typeOnly : Bool) : Reader (Bool × ModuleName × Option ModuleName) := do
    let left ← moduleName
    return (typeOnly, left, ← afterWord "as" moduleName)
  let next ← peek
  if !(← isWord "type") || !next.token.isModuleName then return ← aliased false
  advance
  if !next.token.isWord "as" then return ← aliased true
  advance
  let after := next.next
  -- the type named as
  if !after.token.isModuleName then return (true, ⟨"as", false⟩, none)
  -- type as as name: the type named as, renamed; but type as as renames the name type
  if after.token.isWord "as" && after.next.token.isModuleName then
    advance
    return (true, ⟨"as", false⟩, some (← moduleName))
  return (false, ⟨"type", false⟩, some (← moduleName))

def namedImports (typeOnly : Bool) : Reader (List ImportSpec) := do
  between "\x7b" "\x7d" <| commaList "\x7d" do
    let (onlyType, left, right) ← specifierParts
    faultIf (onlyType && typeOnly)
    let bound := right.getD left
    require !bound.quoted
    require (Token.word bound.name false).isBinding
    checkName bound.name
    return ImportSpec.named left bound.name onlyType

/-- The names that an import binds after the default. -/
def importTail (typeOnly : Bool) : Reader (List ImportSpec) := do
  if ← eatMark "*" then
    expectWord "as"
    return [.namespace_ (← bindingName)]
  namedImports typeOnly

/-- The word `type`, `defer` or `source` after `import` modifies the import. -/
def importWord (w : String) : Reader Bool := do
  if !(← isWord w) then return false
  let next ← peek
  match next.token with
  | .mark "\x7b" => return w == "type"
  | .mark "*" => return w != "source"
  | .word "from" _ =>
    -- import type from "m" names the default; import type from from "m" does not
    let after := next.next.token
    if w == "defer" then return false
    return after.isWord "from" || (w == "type" && after = .mark "=")
  | t => return w != "defer" && t.isBinding

def importStatement : Reader Statement := do
  let start ← start
  expectWord "import"
  match ← token with
  | .string v _ =>
    advance
    let attributes ← importAttributes?
    semicolon
    return .import_ (← spanFrom start) false "" none v attributes
  | _ => pure ()
  if (← isBinding) && (← peekMark "=") then return ← importAliasTail start false
  let typeOnly ← if ← importWord "type" then advanceKeyword; pure true else pure false
  if typeOnly && (← isBinding) && (← peekMark "=") then return ← importAliasTail start true
  let phase ←
    if typeOnly then pure ""
    else if ← importWord "defer" then advanceKeyword; pure "defer"
    else if ← importWord "source" then advanceKeyword; pure "source"
    else pure ""
  let specs ←
    if ← isBinding then
      let first : ImportSpec := .default (← bindingName)
      if ← eatMark "," then
        let more ← importTail typeOnly
        faultIf typeOnly
        pure (first :: more)
      else pure [first]
    else importTail typeOnly
  expectWord "from"
  let source ← moduleSource
  let attributes ← importAttributes?
  semicolon
  return .import_ (← spanFrom start) typeOnly phase (some specs) source attributes

/-! ### Exports -/

def exportNames (start : Nat) (typeOnly : Bool) : Reader Statement := do
  let specs ← between "\x7b" "\x7d" <| commaList "\x7d" do
    let (onlyType, left, right) ← specifierParts
    faultIf (onlyType && typeOnly)
    return ExportSpec.mk left (right.getD left) onlyType
  if ← eatWord "from" then
    let source ← moduleSource
    let attributes ← importAttributes?
    semicolon
    return .exportNames (← spanFrom start) typeOnly specs (some source) attributes
  faultIf (specs.any fun s => s.inner.quoted)
  faultIf (specs.any fun s => !s.inner.quoted && reserved.contains s.inner.name)
  semicolon
  return .exportNames (← spanFrom start) typeOnly specs none none

def exportAll (start : Nat) (typeOnly : Bool) : Reader Statement := do
  expectMark "*"
  let name ← afterWord "as" moduleName
  expectWord "from"
  let source ← moduleSource
  let attributes ← importAttributes?
  semicolon
  return .exportAll (← spanFrom start) typeOnly name source attributes

def exportDefault (g : Grammar) (start : Nat) (before : List Decorator) : Reader Statement := do
  expectWord "default"
  let at_ ← Reader.start
  let decs ← decorators g
  faultIf (!before.isEmpty && !decs.isEmpty)
  let decs := before ++ decs
  let exported (value : Span → DefaultExport) : Reader Statement := do
    return .exportDefault (← spanFrom start) (value (← spanFrom at_))
  let next ← peek
  let isAbstract := (← isWord "abstract") && next.token.isWord "class" && !next.newline
  if isAbstract then advanceKeyword
  if ← isWord "class" then
    let cls ← classRule g decs isAbstract false
    return ← exported (.class_ · cls)
  faultIf !decs.isEmpty
  if ← atFunction then
    let fn ← functionWithKeyword g .declaration false
    return ← exported (.function · fn)
  if (← isWord "interface") && next.token.isBinding && !next.newline then
    let _ ← interfaceRule g at_
    return ← exported .interface_
  let e ← withIn (g.assignment true)
  semicolon
  return .exportDefault (← spanFrom start) (.expr e)

variable (g : Grammar)

def exportStatement (before : List Decorator) : Reader Statement := do
  let start ← start
  expectWord "export"
  let next ← peek
  if ← isWord "default" then return ← exportDefault g start before
  if ← isMark "=" then
    faultIf !before.isEmpty
    advance
    let e ← withIn g.expression
    semicolon
    return .exportAssign (← spanFrom start) e
  if (← isWord "as") && next.token.isWord "namespace" then
    faultIf !before.isEmpty
    advance
    advance
    let _ ← anyWord
    semicolon
    return .typeOnly (← spanFrom start) none
  if ← isMark "*" then
    faultIf !before.isEmpty
    return ← exportAll start false
  if ← isMark "\x7b" then
    faultIf !before.isEmpty
    return ← exportNames start false
  if (← isWord "type") && next.token = .mark "\x7b" then
    faultIf !before.isEmpty
    advance
    return ← exportNames start true
  if (← isWord "type") && next.token = .mark "*" then
    faultIf !before.isEmpty
    advance
    return ← exportAll start true
  let at_ ← Reader.start
  let decs ← decorators g
  faultIf (!before.isEmpty && !decs.isEmpty)
  let found ← declarationModifiers
  let decl ← declarationTail g at_ (before ++ decs) found .list
  return .exportDecl (← spanFrom start) decl

/-! ### Statements -/

def decoratedStatement : Reader Statement := do
  let start ← start
  let decs ← decorators g
  if ← isWord "export" then
    let s ← exportStatement g decs
    match s with
    | .exportDecl _ (.class_ ..) | .exportDefault _ (.class_ ..) => pure ()
    | _ => fault
    return s
  let found ← declarationModifiers
  require (← isWord "class")
  declarationTail g start decs found .list

def statementRule (place : Place) : Reader Statement := do
  let start ← start
  match ← token with
  | .mark m =>
    if m == "\x7b" then
      let body ← bracedStatements g
      return .block (← spanFrom start) body
    if m == ";" then
      advance
      return .empty (← spanFrom start)
    if m == "@" then return ← decoratedStatement g
    expressionStatement g
  | .word w _ =>
    if w == "if" then
      advanceKeyword
      let test ← condition g
      let yes ← g.statement .branch
      let no ← afterWord "else" (g.statement .branch)
      return .if_ (← spanFrom start) test yes no
    if w == "do" then
      advanceKeyword
      let body ← g.statement .body
      expectWord "while"
      let test ← condition g
      let _ ← eatMark ";"
      return .doWhile (← spanFrom start) body test
    if w == "while" then
      advanceKeyword
      let test ← condition g
      let body ← g.statement .body
      return .while_ (← spanFrom start) test body
    if w == "for" then return ← forStatement g
    if w == "continue" then
      advanceKeyword
      let label ← jumpLabel
      return .continue_ (← spanFrom start) label
    if w == "break" then
      advanceKeyword
      let label ← jumpLabel
      return .break_ (← spanFrom start) label
    if w == "return" then
      advanceKeyword
      faultIf !(← allowed (·.inFunction))
      let e ← if ← canEndStatement then pure none else some <$> withIn g.expression
      semicolon
      return .return_ (← spanFrom start) e
    if w == "with" then
      advanceKeyword
      let e ← condition g
      let body ← g.statement .body
      return .with_ (← spanFrom start) e body
    if w == "switch" then
      advanceKeyword
      let e ← condition g
      let clauses ← between "\x7b" "\x7d" (collect (clauseRule g))
      return .switch (← spanFrom start) e clauses
    if w == "throw" then
      advanceKeyword
      faultIf (← onNewLine)
      let e ← withIn g.expression
      semicolon
      return .throw_ (← spanFrom start) e
    if w == "try" then return ← tryStatement g
    if w == "debugger" then
      advanceKeyword
      semicolon
      return .debugger (← spanFrom start)
    if w == "class" then
      let cls ← classRule g [] false false
      faultIf (place ≠ .list)
      return .class_ (← spanFrom start) cls
    if ← atFunction then
      let fn ← functionWithKeyword g .declaration true
      match fn with
      | .mk _ isAsync generator _ _ _ _ _ => faultIf (place ≠ .list && (isAsync || generator))
      return .function (← spanFrom start) false fn
    if w == "import" && !(← peekIs (Token.isMarkIn [".", "("])) then
      return ← importStatement
    if w == "export" then return ← exportStatement g []
    if w == "var" then return ← variableStatement g start false place
    if w == "const" && !(← peekIs (Token.isWord "enum")) then
      return ← variableStatement g start false place
    if w == "let" then return ← letStatement g place
    if ← atUsing then return ← variableStatement g start false place
    if ← atDeclaration then
      let found ← declarationModifiers
      return ← declarationTail g start [] found place
    expressionStatement g
  | _ => expressionStatement g

end Componentry.Script
