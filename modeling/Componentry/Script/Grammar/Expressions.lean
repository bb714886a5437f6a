import Componentry.Script.Grammar.Patterns

/-!
# Expressions

From primary expressions outwards: literals and names, member accesses and calls, unary and binary
operators, conditions, arrows and assignments. An arrow with parenthesised parameters is told from
a parenthesised expression by looking a few tokens ahead, and by a trial where that does not
decide.
-/

namespace Componentry.Script

open Reader

/-! ### Primary expressions -/

variable (g : Grammar)

def enclosed {α : Type} (r : Reader α) : Reader α :=
  within (fun c => { c with inOperator := true, inDecorator := false }) r

/-- A template, the current token being its first stretch. `tagged` allows escapes that stand for
nothing. -/
def templateParts (tagged : Bool) : Reader (List Quasi × List Expr) := do
  match ← token with
  | .template q last =>
    faultIf (!tagged && q.cooked.isNone)
    advance
    if last then return ([q], [])
    iterate (fun (acc : List Quasi × List Expr) => do
      let e ← enclosed g.expression
      let (q, last) ← templateTail
      faultIf (!tagged && q.cooked.isNone)
      return ((acc.1 ++ [q], acc.2 ++ [e]), !last)) ([q], [])
  | _ => fail

def regexRule : Reader Expr := do
  let start ← start
  match regexAt ((← get).here.drop 1) with
  | none => fail
  | some (body, flags, taken, rest) =>
    modify fun c => { c with stop := c.start + 1 + taken, rest }
    advance
    return .literal (← spanFrom start) (.regex body flags)

def itemRule : Reader Item := do
  let start ← start
  if ← eatMark "..." then
    let e ← g.assignment true
    return .spread (← spanFrom start) e
  return .plain (← g.assignment true)

def noteTrailing (start : Nat) (trailing : Bool) : Reader Unit :=
  if trailing then modify fun c => { c with trailing := start :: c.trailing } else pure ()

def arrayRule : Reader Expr := do
  let start ← start
  let (items, trailing) ← between "[" "]" <| enclosed <| commaListTail "]" do
    if ← isMark "," then return Item.hole
    itemRule g
  noteTrailing start trailing
  return .array (← spanFrom start) items

def propertyRule : Reader Property := do
  let start ← start
  if ← eatMark "..." then
    let e ← g.assignment true
    return .spread (← spanFrom start) e
  let found ← modifiers false false
  onlyModifiers ["async"] found
  let accessor (kind : MethodKind) : Reader Property := do
    onlyModifiers [] found
    let key ← memberKey g false
    let fn ← functionTail g .objectMethod none false false
    let (count, rest) := fn.arity
    faultIf (if kind = .get then count != 0 || rest else count != 1 || rest)
    return .method (← spanFrom start) key kind fn
  if ← contextualWord "get" then return ← accessor .get
  if ← contextualWord "set" then return ← accessor .set
  let generator ← eatMark "*"
  let nameToken ← token
  let key ← memberKey g false
  let isAsync := found.contains "async"
  if generator || (← isMarkIn ["(", "<"]) then
    let fn ← functionTail g .objectMethod none isAsync generator
    return .method (← spanFrom start) key .method fn
  faultIf !found.isEmpty
  match key, nameToken.isBinding && !(← isMark ":") with
  | .name at_ name, true =>
    checkName name
    if ← eatMark "=" then
      let e ← withIn (g.assignment true)
      modify fun c => { c with covers := at_.start :: c.covers }
      return .initialised (← spanFrom start) name e
    return .field (← spanFrom start) key (.ident at_ name) true
  | _, _ =>
    expectMark ":"
    let e ← g.assignment true
    return .field (← spanFrom start) key e false

def objectRule : Reader Expr := do
  let start ← start
  let (props, trailing) ← between "\x7b" "\x7d" (enclosed (commaListTail "\x7d" (propertyRule g)))
  noteTrailing start trailing
  return .object (← spanFrom start) props

def markWrapped : Expr → Expr
  | .function at_ fn _ => .function at_ fn true
  | .arrow at_ fn _ => .arrow at_ fn true
  | e => e

def parenRule : Reader Expr := do
  let start ← start
  expectMark "("
  let first ← Reader.start
  let (items, trailing) ← enclosed (commaListTail ")" (g.assignment true))
  faultIf trailing
  let inner ← match items with
    | [] => fail
    | [e] => pure (markWrapped e)
    | es => pure (.sequence (← spanFrom first) es)
  expectMark ")"
  return .paren (← spanFrom start) inner

def argumentsRule : Reader (List Item) :=
  between "(" ")" (enclosed (commaList ")" (itemRule g)))

def importExpression : Reader Expr := do
  let start ← start
  expectWord "import"
  let phase ←
    if ← eatMark "." then
      if ← isWord "meta" then
        advanceKeyword
        return .metaProperty (← spanFrom start) "import" "meta"
      match ← token with
      | .word "defer" _ => advanceKeyword; pure "defer"
      | .word "source" _ => advanceKeyword; pure "source"
      | _ => fail
    else pure ""
  match ← between "(" ")" (enclosed (commaList ")" (g.assignment true))) with
  | [e] => return .importCall (← spanFrom start) phase e none
  | [e, o] => return .importCall (← spanFrom start) phase e (some o)
  | _ => fail

/-- A primary expression. `new` is handled by its caller. -/
def primaryRule : Reader Expr := do
  let start ← start
  if ← atFunction then
    let fn ← functionWithKeyword g .expression false
    return .function (← spanFrom start) fn false
  match ← token with
  | .number r => advance; return .literal (← spanFrom start) (.number r)
  | .bigInt r => advance; return .literal (← spanFrom start) (.bigInt r)
  | .string v r => advance; return .literal (← spanFrom start) (.string v r)
  | .template .. =>
    let (quasis, parts) ← templateParts g false
    return .template (← spanFrom start) quasis parts
  | .mark m =>
    if m == "(" then parenRule g
    else if m == "[" then arrayRule g
    else if m == "\x7b" then objectRule g
    else if m == "/" || m == "/=" then regexRule
    else if m == "@" then
      let decs ← decorators g
      let cls ← classRule g decs false false
      return .class_ (← spanFrom start) cls
    else fail
  | .word w _ =>
    if w == "this" then advanceKeyword; return .this (← spanFrom start)
    else if w == "null" then advanceKeyword; return .literal (← spanFrom start) .null
    else if w == "true" then advanceKeyword; return .literal (← spanFrom start) (.bool true)
    else if w == "false" then advanceKeyword; return .literal (← spanFrom start) (.bool false)
    else if w == "super" then
      advanceKeyword
      faultIf !(← isMarkIn [".", "(", "["])
      return .super (← spanFrom start)
    else if w == "class" then
      let cls ← classRule g [] false false
      return .class_ (← spanFrom start) cls
    else if w == "import" then importExpression g
    else reference
  | _ => fail

/-! ### Member accesses and calls -/

def startsExpression : Reader Bool := do
  match ← token with
  | .number _ | .bigInt _ | .string .. | .template .. | .privateName _ => return true
  | .mark m =>
    return ["(", "[", "\x7b", "/", "/=", "+", "-", "~", "!", "++", "--", "<", "@"].contains m
  | .word w _ =>
    if ["this", "super", "null", "true", "false", "function", "class", "new", "delete", "typeof",
        "void", "await", "yield"].contains w then return true
    if w == "import" then return ← peekIs (Token.isMarkIn ["(", "<", "."])
    return !reserved.contains w
  | _ => return false

def followsTypeArguments : Reader Bool := do
  match ← token with
  | .template .. => return true
  | .mark "(" => return true
  | .mark "<" | .mark ">" | .mark "+" | .mark "-" => return false
  | t =>
    if ← onNewLine then return true
    if t.level.isSome && (!t.isWord "in" || (← allowed (·.inOperator))) then return true
    return !(← startsExpression)

/-- `<A, B>` in an expression, where it could also be two comparisons. -/
def expressionTypeArguments : Reader Unit := do
  splitLess
  expectMark "<"
  let items ← commaList ">" g.type
  require (← isMark ">")
  require !(Text.startsWith ['>', '='] (← get).here)
  advance
  faultIf items.isEmpty
  require (← followsTypeArguments)

/-- The name after a point: the access on an object. -/
def memberName (start : Nat) (object : Expr) (optional : Bool) : Reader Expr := do
  match ← token with
  | .word t _ => advance; return .member (← spanFrom start) object t optional
  | .privateName t => advance; return .privateMember (← spanFrom start) object t optional
  | _ => fail

/-- What goes on with an expression: the expression, and whether an optional access was read. -/
structure Suffixed where
  expr : Expr
  optional : Bool := false

def Expr.dropInstantiation : Expr → Expr
  | .cast _ .instantiation e => e
  | e => e

/-- Member accesses, tagged templates and type marks after an expression. -/
def memberSuffixes (start : Nat) (chains : Bool) (s : Suffixed) : Reader Suffixed :=
  iterate (fun (s : Suffixed) => do
    if ← eatMark "." then
      return ({ s with expr := ← memberName start s.expr false }, true)
    if chains && (← isMark "?.") then
      let next := (← peek).token
      match next with
      | .word .. | .privateName _ =>
        advance
        return ({ expr := ← memberName start s.expr true, optional := true }, true)
      | .mark "[" =>
        advance
        let key ← between "[" "]" (enclosed g.expression)
        return ({ expr := .index (← spanFrom start) s.expr key true, optional := true }, true)
      | _ => return (s, false)
    if (← isMark "[") && !(← allowed (·.inDecorator)) then
      let key ← between "[" "]" (enclosed g.expression)
      return ({ s with expr := .index (← spanFrom start) s.expr key false }, true)
    if (← token).isTemplate then
      faultIf s.optional
      let (quasis, parts) ← templateParts g true
      let tag := s.expr.dropInstantiation
      return ({ s with expr := .tagged (← spanFrom start) tag quasis parts }, true)
    if (← isMark "!") && !(← onNewLine) then
      advance
      return ({ s with expr := .cast (← spanFrom start) .nonNull s.expr }, true)
    if ← atTypeArguments then
      match ← attempt (expressionTypeArguments g) with
      | some _ => return ({ s with expr := .cast (← spanFrom start) .instantiation s.expr }, true)
      | none => return (s, false)
    return (s, false)) s

/-- Calls and member accesses after an expression. -/
def callSuffixes (start : Nat) (s : Suffixed) : Reader Suffixed :=
  iterate (fun (s : Suffixed) => do
    let s ← memberSuffixes g start true s
    let question ← eatMark "?."
    let typed ←
      if question then
        if ← atTypeArguments then pure (← attempt (expressionTypeArguments g)).isSome
        else pure false
      else pure false
    if typed || (← isMark "(") then
      let callee := if question then s.expr else s.expr.dropInstantiation
      let args ← argumentsRule g
      return ({ expr := .call (← spanFrom start) callee args question,
                optional := s.optional || question }, true)
    if question then fail
    return (s, false)) s

def newRule : Reader Expr := do
  let start ← start
  expectWord "new"
  if ← eatMark "." then
    expectWord "target"
    return .metaProperty (← spanFrom start) "new" "target"
  let callee ← g.constructed
  let args ← if ← isMark "(" then argumentsRule g
    else
      faultIf (← isMark "?.")
      pure []
  match callee with
  | .importCall .. => fault
  | _ => pure ()
  return .new (← spanFrom start) callee.dropInstantiation args

/-- A primary expression or `new`. -/
def headRule : Reader Expr := do
  if ← isWord "new" then newRule g else primaryRule g

def constructedRule : Reader Expr := do
  let start ← start
  let e ← headRule g
  let s ← memberSuffixes g start false { expr := e }
  return s.expr

def leftHandRule : Reader Expr := do
  let start ← start
  let e ← headRule g
  let s ← callSuffixes g start { expr := e }
  if s.optional then return .chain (← spanFrom start) s.expr
  return s.expr

/-! ### Unary operators -/

def unaryMarks : List String := ["+", "-", "!", "~"]

def unaryWords : List String := ["delete", "void", "typeof"]

/-- A token that can follow `await` or `yield` only where they are operators. -/
def followsOperatorWord (c : Cursor) : Bool :=
  !c.newline && !c.token.isOperator && (c.token.isLiteral || c.token.isAnyWord)

/-- A word stands as an operator here. Where it need not be one, it is none before some tokens. -/
def atOperatorWord (w : String) (here : Context → Bool) (never : Token → Bool) : Reader Bool := do
  if !(← isWord w) then return false
  let next ← peek
  if next.token = .mark "=>" then return false
  if ← allowed here then return true
  return !never next.token && followsOperatorWord next

def atAwait : Reader Bool := atOperatorWord "await" (·.inAsync) (Token.isWord "of")

/-- Updates before or after an expression, and expressions without operators. -/
def updateRule : Reader Expr := do
  let start ← start
  match ← token with
  | .mark "++" | .mark "--" =>
    let op := if ← isMark "++" then "++" else "--"
    advance
    let e ← g.unary
    let _ ← simpleTarget e
    return .update (← spanFrom start) op true e
  | _ =>
    let e ← g.leftHand
    if (← isMarkIn ["++", "--"]) && !(← onNewLine) then
      let op := if ← isMark "++" then "++" else "--"
      let _ ← simpleTarget e
      advance
      return .update (← spanFrom start) op false e
    return e

def unaryRule : Reader Expr := do
  let start ← start
  match ← token with
  | .mark m =>
    if unaryMarks.contains m then
      advance
      let e ← g.unary
      return .unary (← spanFrom start) m e
    if m == "<" || m == "<<" then
      splitLess
      advance
      g.type
      expectMark ">"
      let e ← g.unary
      return .cast (← spanFrom start) .assertion e
    updateRule g
  | .word w _ =>
    if unaryWords.contains w then
      advanceKeyword
      let e ← g.unary
      return .unary (← spanFrom start) w e
    if ← atAwait then
      faultIf !(← allowed (·.inAsync))
      advanceKeyword
      let e ← within (fun c => { c with inAsync := true }) g.unary
      return .await (← spanFrom start) e
    updateRule g
  | _ => updateRule g

/-! ### Binary operators -/

/-- Notes a fault for `??` beside an unparenthesised `&&` or `||`. -/
def checkMixed (op : String) (left right : Expr) : Reader Unit := do
  let mixes : Expr → Bool
    | .logical _ o _ _ => o == "&&" || o == "||"
    | _ => false
  faultIf (op == "??" && (mixes left || mixes right))

/-- An expression that may not stand before `**`. -/
def isUnaryOperand : Expr → Bool
  | .unary .. | .await .. => true
  | _ => false

/-- Binary operators after a left operand, binding tighter than a level. -/
def binarySuffixes (start : Nat) (least : Nat) (left : Expr) : Reader Expr :=
  iterate (fun (left : Expr) => do
    joinGreater
    let t ← token
    match t.level with
    | none => return (left, false)
    | some level =>
      let binds := if level == 13 then least ≤ level else least < level
      if !binds then return (left, false)
      if t.isWord "in" && !(← allowed (·.inOperator)) then return (left, false)
      if t.isWord "as" || t.isWord "satisfies" then
        if ← onNewLine then return (left, false)
        let how := if t.isWord "as" then Cast.as else Cast.satisfies
        advanceKeyword
        g.type
        return (.cast (← spanFrom start) how left, true)
      let op := match t with
        | .mark m => m
        | .word w _ => w
        | _ => ""
      advanceKeyword
      let right ← g.binary level
      if op == "&&" || op == "||" || op == "??" then
        checkMixed op left right
        return (.logical (← spanFrom start) op left right, true)
      faultIf (op == "**" && isUnaryOperand left)
      return (.binary (← spanFrom start) op left right, true)) left

def binaryRule (least : Nat) : Reader Expr := do
  let start ← start
  let left ← match ← token with
    | .privateName name =>
      require (← allowed (·.inOperator))
      advance
      require (← isWord "in")
      advanceKeyword
      let right ← g.binary 9
      pure (.privateIn (← spanFrom start) name right)
    | _ => g.unary
  binarySuffixes g start least left

/-! ### Arrows -/

/-- What looking ahead says about an arrow. -/
inductive Outlook where
  | no
  | maybe
  | yes
deriving DecidableEq

def arrowOutlook : Reader Outlook := do
  if !((← isMarkIn ["(", "<"]) || (← isWord "async")) then return .no
  let found ← ahead (α := Outlook) do
    if ← isWord "async" then
      advance
      if ← onNewLine then return .no
      if !(← isMarkIn ["(", "<"]) then return .no
    if ← isMark "<" then
      advance
      if (← isBinding) || (← isWord "const") then return .maybe
      return .no
    advance
    match ← token with
    | .mark ")" =>
      advance
      return if ← isMarkIn ["=>", ":", "\x7b"] then .yes else .no
    | .mark "[" | .mark "\x7b" => return .maybe
    | .mark "..." =>
      advance
      let t ← token
      match t with
      | .word w _ =>
        if t.isLiteral then return .no
        return if reserved.contains w then .maybe else .yes
      | _ => return if t.isLiteral then .no else .maybe
    | .word w e =>
      let t : Token := .word w e
      advance
      if w != "async" && modifierWords.contains w && (← isName) then
        return if ← isWord "as" then .no else .yes
      if !t.isBinding && w != "this" then return .no
      if ← isMark ":" then return .yes
      if ← isMark "?" then
        advance
        return if ← isMarkIn [":", ",", "=", ")"] then .yes else .no
      return if ← isMarkIn [",", "=", ")"] then .maybe else .no
    | _ => return .no
  return found.getD .no

def arrowBody (start : Nat) (isAsync : Bool) (params : List Param)
    (rest : Option Param) (arrowReturn : Bool) : Reader Expr := do
  faultIf (← onNewLine)
  expectMark "=>"
  let inner := fun (c : Context) => { c with inAsync := isAsync, inGenerator := false }
  let arrow (body : List Statement) (at_ : Span) (concise : Bool) : Reader Expr := do
    let fn := .mk none isAsync false params rest (some body) at_ concise
    return .arrow (← spanFrom start) fn false
  if ← isMark "\x7b" then
    let (body, at_) ← within inner (functionBody g)
    return ← arrow body at_ false
  let e ← within (fun c => { inner c with inDecorator := false }) (g.assignment arrowReturn)
  arrow [.expr e.span e] e.span true

/-- An arrow with parenthesised parameters. A trial also checks that an arrow follows, and that a
result type did not take the colon of a condition. -/
def arrowRule (trial arrowReturn : Bool) : Reader Expr := do
  let start ← start
  let isAsync ← eatWord "async"
  let (params, rest, typed) ← within
      (fun c => { c with inAsync := isAsync, inOperator := true, noConditionalType := false }) do
    let _ ← typeParameters? g
    let (params, rest) ← parameters g .arrow
    let typed ← result? g
    return (params, rest, typed)
  if trial then require (← isMarkIn ["=>", "\x7b"])
  let e ← arrowBody g start isAsync params rest arrowReturn
  if trial && !arrowReturn && typed then require (← isMark ":")
  return e

/-- An arrow with a bare parameter after `async`. -/
def atAsyncArrow : Reader Bool := do
  if !(← isWord "async") then return false
  let next ← peek
  if next.newline || !next.token.isBinding then return false
  return next.next.token = .mark "=>"

/-! ### Assignments -/

def atYield : Reader Bool := atOperatorWord "yield" (·.inGenerator) fun _ => false

def yieldRule : Reader Expr := do
  let start ← start
  faultIf !(← allowed (·.inGenerator))
  advanceKeyword
  if ← onNewLine then return .yield (← spanFrom start) false none
  let delegate ← eatMark "*"
  let ends := (← atEnd) || (← isMarkIn [";", "\x7d", ":", ")", "]", ","]) || (← isWord "in")
  if ends && !delegate then return .yield (← spanFrom start) false none
  let e ← g.assignment true
  return .yield (← spanFrom start) delegate (some e)

/-- Marks the call that comes first in an expression as free of effects. -/
def markCall : Expr → Expr
  | .call at_ callee args optional => .inert at_ (.call at_ callee args optional)
  | .new at_ callee args => .inert at_ (.new at_ callee args)
  | .binary at_ op left right => .binary at_ op (markCall left) right
  | .logical at_ op left right => .logical at_ op (markCall left) right
  | .chain at_ (.call place callee args optional) =>
    .chain at_ (.inert place (.call place callee args optional))
  | .paren at_ e => .paren at_ (markCall e)
  | e => e

/-- A comment right before the current token marks a call as free of effects. -/
def atMarkedCall : Reader Bool :=
  view fun c => (c.comments.takeWhile fun x => x.token == c.start).any Comment.marksCall

/-- An expression without commas. -/
def assignmentRule (arrowReturn : Bool) : Reader Expr := do
  let start ← start
  let marked ← atMarkedCall
  if ← atYield then return ← yieldRule g
  match ← arrowOutlook with
  | .yes => return ← arrowRule g false true
  | .maybe =>
    match ← attempt (arrowRule g true arrowReturn) with
    | some e => return e
    | none => pure ()
  | .no => pure ()
  if ← atAsyncArrow then
    advanceKeyword
    let at_ ← Reader.start
    let name ← within (fun c => { c with inAsync := true }) bindingName
    let p : Pattern := .bind (← spanFrom at_) name
    return ← arrowBody g start true [.mk (← spanFrom at_) [] {} p] none arrowReturn
  let left ← g.binary 0
  let left := if marked then markCall left else left
  match left with
  | .ident at_ name =>
    if ← isMark "=>" then
      return ← arrowBody g start false [.mk at_ [] {} (.bind at_ name)] none arrowReturn
  | _ => pure ()
  match ← token with
  | .mark m =>
    if assignmentMarks.contains m then
      let target ← if m == "=" then assignmentTarget left else simpleTarget left
      advance
      let value ← g.assignment arrowReturn
      return .assign (← spanFrom start) m target value
    if m == "?" then
      advance
      let yes ← enclosed (g.assignment false)
      expectMark ":"
      let no ← g.assignment arrowReturn
      return .cond (← spanFrom start) left yes no
    return left
  | _ => return left

def expressionRule : Reader Expr := do
  let start ← start
  let first ← g.assignment true
  if !(← isMark ",") then return first
  let rest ← collect (afterMark "," (g.assignment true))
  return .sequence (← spanFrom start) (first :: rest)

end Componentry.Script
