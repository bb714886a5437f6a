import Componentry.Script.Grammar.Expressions

/-!
# Statements and declarations

Control flow, declarations of values and of types. Declarations of types are read and kept by name
only. In a place for a single statement, lexical declarations are faults.
-/

namespace Componentry.Script

open Reader

/-! ### Variables -/

def needsValue (kind : VarKind) : Pattern → Bool
  | .bind .. => kind != .var && kind != .let_
  | _ => true

def Declarator.lacksValue (kind : VarKind) : Declarator → Bool
  | .mk _ p value => value.isNone && needsValue kind p

variable (g : Grammar)

def declarators : Reader (List Declarator) := do
  iterate (fun (found : List Declarator) => do
    let start ← start
    let p ← g.pattern
    if (← isMark "!") && !(← onNewLine) then advance
    let _ ← typeNote? g
    let value ← afterMark "=" (g.assignment true)
    let found := found ++ [Declarator.mk (← spanFrom start) p value]
    return (found, ← eatMark ",")) []

def variableKind : Reader VarKind := do
  if ← eatWord "var" then return .var
  if ← eatWord "let" then return .let_
  if ← eatWord "const" then return .const
  if ← eatWord "using" then return .using
  expectWord "await"
  expectWord "using"
  return .awaitUsing

def variableStatement (start : Nat) (isDeclare : Bool) (place : Place) : Reader Statement := do
  let kind ← variableKind
  let decls ← withIn (declarators g)
  if !(← allowed (·.ambient)) then
    faultIf (decls.any (Declarator.lacksValue kind))
  faultIf (place ≠ .list && kind != .var)
  semicolon
  return .variables (← spanFrom start) kind isDeclare decls

/-- `using` starts a declaration here. -/
def atUsing : Reader Bool := do
  if ← isWord "using" then
    let next ← peek
    return !next.newline && next.token.isName && !next.token.isWord "of" &&
      !next.token.isWord "in" && !next.token.isWord "instanceof"
  if ← isWord "await" then
    let next ← peek
    if next.newline || !next.token.isWord "using" then return false
    let after := next.next
    return !after.newline && after.token.isName
  return false

/-! ### Control flow -/

/-- An expression in parentheses after a keyword. -/
def condition : Reader Expr := between "(" ")" (enclosed g.expression)

def forTail (start : Nat) (init : ForHead) : Reader Statement := do
  expectMark ";"
  let optional (close : String) : Reader (Option Expr) := do
    if ← isMark close then return none
    return some (← enclosed g.expression)
  let test ← optional ";"
  expectMark ";"
  let update ← optional ")"
  expectMark ")"
  let body ← g.statement .body
  return .for_ (← spanFrom start) init test update body

def forEachTail (start : Nat) (isAwait : Bool) (left : ForHead) : Reader Statement := do
  let isIn ← eatWord "in"
  if isIn then faultIf isAwait else expectWord "of"
  let right ← enclosed (if isIn then g.expression else g.assignment true)
  expectMark ")"
  let body ← g.statement .body
  let at_ ← spanFrom start
  return if isIn then .forIn at_ left right body else .forOf at_ isAwait left right body

/-- `let` in the head of a `for` starts a declaration. -/
def atForLet : Reader Bool := do
  if !(← isWord "let") then return false
  let next ← peek
  if next.token.isWord "in" then return false
  if next.token.isWord "of" then
    let after := next.next
    return after.token.isMarkIn ["=", ";", ",", ":"] || after.token.isWord "of" ||
      after.token.isWord "in"
  return next.token.isBinding || next.token.isMarkIn ["[", "\x7b"]

def forStatement : Reader Statement := do
  let start ← start
  expectWord "for"
  let isAwait ←
    if ← isWord "await" then
      faultIf !(← allowed (·.inAsync))
      advanceKeyword
      pure true
    else pure false
  expectMark "("
  if ← isMark ";" then
    faultIf isAwait
    return ← forTail g start .empty
  if (← isWordIn ["var", "const"]) || (← atForLet) || (← atUsing) then
    let at_ ← Reader.start
    let (kind, decls) ← within (fun c => { c with inOperator := false, inDecorator := false }) do
      let kind ← variableKind
      return (kind, ← declarators g)
    let head : ForHead := .declare (← spanFrom at_) kind decls
    if ← isWordIn ["in", "of"] then return ← forEachTail g start isAwait head
    faultIf isAwait
    faultIf (decls.any (Declarator.lacksValue kind))
    return ← forTail g start head
  let startsAsync := (← isWord "async") && (← peekIs (Token.isWord "of"))
  let startsLet ← isWord "let"
  let e ← within (fun c => { c with inOperator := false, inDecorator := false }) g.expression
  if ← isWordIn ["in", "of"] then
    faultIf (!isAwait && startsAsync && (← isWord "of"))
    faultIf (startsLet && (← isWord "of"))
    let p ← assignmentTarget e
    return ← forEachTail g start isAwait (.target p)
  faultIf isAwait
  forTail g start (.expr e)

def clauseRule : Reader (Option Clause) := do
  let start ← start
  let test ←
    if ← eatWord "case" then some <$> enclosed g.expression
    else if ← eatWord "default" then pure none
    else return none
  expectMark ":"
  let body ← collect do
    if (← atClose) || (← isWordIn ["case", "default"]) then return none
    return some (← g.statement .list)
  return some (.mk (← spanFrom start) test body)

/-- Statements in braces, and where they stand. -/
def placedBlock : Reader (Span × List Statement) := do
  let start ← start
  let body ← bracedStatements g
  return (← spanFrom start, body)

def tryStatement : Reader Statement := do
  let start ← start
  expectWord "try"
  let (blockAt, body) ← placedBlock g
  let caught ← afterWord "catch" do
    let param ← afterMark "(" do
      let p ← g.pattern
      let _ ← typeNote? g
      expectMark ")"
      return p
    return (param, ← placedBlock g)
  let handler := caught.map Prod.snd
  let finalizer ← afterWord "finally" (placedBlock g)
  faultIf (caught.isNone && finalizer.isNone)
  return .try_ (← spanFrom start) blockAt body (caught.bind Prod.fst) (handler.map Prod.fst)
    ((handler.map Prod.snd).getD []) (finalizer.map Prod.fst) ((finalizer.map Prod.snd).getD [])

/-- `break` or `continue` with its label. -/
def jumpLabel : Reader (Option String) := do
  let label ← if ← canEndStatement then pure none else some <$> bindingName
  semicolon
  return label

def expressionStatement : Reader Statement := do
  let start ← start
  let e ← g.expression
  match e with
  | .ident _ name =>
    if ← eatMark ":" then
      let body ← g.statement .label
      return .labeled (← spanFrom start) name body
  | _ => pure ()
  semicolon
  return .expr (← spanFrom start) e

/-- A statement that starts with `let`, which may also be a name. -/
def letStatement (place : Place) : Reader Statement := do
  let start ← start
  let next := (← peek).token
  if next.isOperator || next.isMarkIn assignmentMarks || next.isMarkIn [".", "("] then
    return ← expressionStatement g
  if (place ≠ .list && next ≠ .mark "[") || next = .mark ";" then
    let e ← reference
    semicolon
    return .expr (← spanFrom start) e
  variableStatement g start false place

/-! ### Declarations of types -/

def enumKey : Reader String := do
  match ← token with
  | .word t _ => advance; return t
  | .string v _ => advance; return v
  | .mark "[" =>
    match ← between "[" "]" (withIn (g.assignment true)) with
    | .literal _ (.string v _) => return v
    | .template _ [q] [] => return q.cooked.getD q.raw
    | _ => fail
  | _ => fail

variable (start : Nat)

variable (isDeclare : Bool)

def enumRule : Reader Statement := do
  expectWord "enum"
  let name ← bindingName
  let members ← between "\x7b" "\x7d" <| commaList "\x7d" do
    let start ← Reader.start
    let key ← enumKey g
    let value ← afterMark "=" (withIn (g.assignment true))
    return EnumMember.mk (← spanFrom start) key value
  return .enum_ (← spanFrom start) isDeclare name members

def interfaceRule : Reader Statement := do
  expectWord "interface"
  let name ← bindingName
  let _ ← typeParameters? g
  if ← eatWord "extends" then
    let _ ← iterate (fun (_ : Unit) => do
      let e ← g.leftHand
      match e with
      | .cast _ .instantiation _ => pure ()
      | _ => if ← atTypeArguments then typeArguments g
      return ((), ← eatMark ",")) ()
  faultIf (← isWord "implements")
  typeMembers g
  return .typeOnly (← spanFrom start) (some name)

def aliasRule : Reader Statement := do
  expectWord "type"
  let name ← bindingName
  let _ ← typeParameters? g
  expectMark "="
  g.type
  semicolon
  return .typeOnly (← spanFrom start) (some name)

def namespaceBody : Reader (List Statement) := between "\x7b" "\x7d" <|
  within (fun c => { c with ambient := c.ambient || isDeclare }) (statementList g)

def namespaceRule : Reader Statement := do
  if ← eatWord "global" then
    let _ ← namespaceBody g true
    return .typeOnly (← spanFrom start) none
  if !(← eatWord "namespace") then expectWord "module"
  match ← token with
  | .string .. =>
    advance
    if ← isMark "\x7b" then
      let _ ← namespaceBody g true
    else semicolon
    return .typeOnly (← spanFrom start) none
  | _ =>
    let first ← bindingName
    let more ← collect (afterMark "." anyWord)
    let body ← namespaceBody g isDeclare
    return .namespace_ (← spanFrom start) isDeclare (first :: more) body

/-- A declaration that only typed scripts have, or one with such modifiers, starts here. -/
def atDeclaration : Reader Bool := Reader.test do
  go (2 + (← view fun c => c.here.length))
where
  go : Nat → Reader Bool
    | 0 => return false
    | fuel + 1 => do
      match ← token with
      | .word w _ =>
        if ["var", "let", "const", "function", "class", "enum"].contains w then return true
        if w == "interface" || w == "type" then
          advance
          return (← isBinding) && !(← onNewLine)
        if w == "module" || w == "namespace" then
          advance
          match ← token with
          | .string .. => return !(← onNewLine)
          | t => return t.isBinding && !(← onNewLine)
        if ["abstract", "accessor", "async", "declare", "private", "protected", "public",
            "readonly"].contains w then
          advance
          if ← onNewLine then return false
          go fuel
        else if w == "global" then
          advance
          return (← isName) || (← isMark "\x7b") || (← isWord "export")
        else if w == "import" then
          advance
          match ← token with
          | .string .. | .mark "*" | .mark "\x7b" => return true
          | t => return t.isAnyWord
        else if w == "static" then
          advance
          go fuel
        else return false
      | _ => return false

/-- The modifiers of a declaration; `async` is left to the function it belongs to. -/
def declarationModifiers : Reader (List String) :=
  iterate (fun (seen : List String) => do
    if ← atFunction then return (seen, false)
    if (← isWord "const") && !(← peekIs (Token.isWord "enum")) then return (seen, false)
    match ← modifier? true false false with
    | some w =>
      faultIf (seen.contains w)
      return (seen ++ [w], true)
    | none => return (seen, false)) []

def moduleSource : Reader String := do
  match ← token with
  | .string v _ => advance; return v
  | _ => fail

def importAliasTail (typeOnly : Bool) : Reader Statement := do
  let name ← bindingName
  expectMark "="
  if (← isWord "require") && (← peekMark "(") then
    advance
    let source ← between "(" ")" moduleSource
    semicolon
    return .importRequire (← spanFrom start) typeOnly name source
  let path ← dottedName
  semicolon
  return .importAlias (← spanFrom start) typeOnly name path

/-- A declaration after its modifiers. -/
def declarationTail (decs : List Decorator) (found : List String)
    (place : Place) : Reader Statement := do
  let isDeclare := found.contains "declare"
  let tail : Reader Statement := do
    if ← isWord "class" then
      onlyModifiers ["declare", "abstract"] found
      let cls ← classRule g decs (found.contains "abstract") isDeclare
      return .class_ (← spanFrom start) cls
    faultIf !decs.isEmpty
    if ← isWord "enum" then
      onlyModifiers ["declare", "const"] found
      return ← enumRule g start isDeclare
    onlyModifiers ["declare"] found
    if ← atFunction then
      let fn ← functionWithKeyword g .declaration true
      return .function (← spanFrom start) isDeclare fn
    if ← isWordIn ["var", "let", "const"] then
      return ← variableStatement g start isDeclare place
    if ← isWord "interface" then return ← interfaceRule g start
    if ← isWord "type" then return ← aliasRule g start
    if ← isWordIn ["namespace", "module", "global"] then return ← namespaceRule g start isDeclare
    if ← atUsing then return ← variableStatement g start isDeclare place
    if ← isWord "import" then
      advanceKeyword
      let typeOnly ← if (← isWord "type") && !(← peekMark "=") then eatWord "type" else pure false
      return ← importAliasTail start typeOnly
    fail
  if isDeclare then within (fun c => { c with ambient := true }) tail else tail

end Componentry.Script
