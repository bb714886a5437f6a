import Componentry.Script.Cursor

/-!
# The grammar as a record

The rules of the grammar refer to each other through a record of readers, so that each family of
rules is a plain function of that record. The knot is tied once, with a bound on the depth of
nesting. This module holds the record and the rules that need none of it: names, word classes and
modifiers.
-/

namespace Componentry.Script

open Reader

/-- Where a statement stands. -/
inductive Place where
  | list
  | branch
  | body
  | label
deriving DecidableEq

/-- The rules that other rules refer to. -/
structure Grammar where
  expression : Reader Expr
  /-- An expression without commas; the flag allows an arrow to have a result type. -/
  assignment : Bool → Reader Expr
  /-- Operators that bind tighter than a level. -/
  binary : Nat → Reader Expr
  /-- A unary expression that is no update. -/
  unary : Reader Expr
  /-- A call, member access or primary expression. -/
  leftHand : Reader Expr
  /-- A primary expression with its member accesses, as `new` takes it. -/
  constructed : Reader Expr
  pattern : Reader Pattern
  type : Reader Unit
  /-- A type without unions and conditions. -/
  typeOperand : Reader Unit
  statement : Place → Reader Statement

def Grammar.none : Grammar where
  expression := fail
  assignment _ := fail
  binary _ := fail
  unary := fail
  leftHand := fail
  constructed := fail
  pattern := fail
  type := fail
  typeOperand := fail
  statement _ := fail

/-- Words that are never names. -/
def reserved : List String :=
  ["await", "break", "case", "catch", "class", "const", "continue", "debugger", "default", "delete",
   "do", "else", "enum", "export", "extends", "false", "finally", "for", "function", "if", "import",
   "in", "instanceof", "new", "null", "return", "super", "switch", "this", "throw", "true", "try",
   "typeof", "var", "void", "while", "with", "yield"]

def modifierWords : List String :=
  ["abstract", "accessor", "async", "const", "declare", "default", "export", "in", "out",
   "override", "private", "protected", "public", "readonly", "static"]

def Token.isName : Token → Bool
  | .word t _ => !reserved.contains t
  | _ => false

/-- A token that may name a binding; whether `yield` and `await` may is decided later. -/
def Token.isBinding : Token → Bool
  | .word t _ => !reserved.contains t || t == "yield" || t == "await"
  | _ => false

def Token.isAnyWord : Token → Bool
  | .word .. => true
  | _ => false

def Token.isLiteral : Token → Bool
  | .number _ | .bigInt _ | .string .. => true
  | .word t _ => t == "null" || t == "true" || t == "false"
  | _ => false

def Token.isTemplate : Token → Bool
  | .template .. => true
  | _ => false

def Token.isNumeric : Token → Bool
  | .number _ | .bigInt _ => true
  | _ => false

/-- A token that can be the name of a property without brackets. -/
def Token.isPropertyName : Token → Bool
  | .word .. | .string .. | .number _ | .bigInt _ => true
  | _ => false

def assignmentMarks : List String :=
  ["=", "+=", "-=", "*=", "/=", "%=", "**=", "<<=", ">>=", ">>>=", "&=", "|=", "^=", "&&=", "||=",
   "??="]

def Token.level : Token → Option Nat
  | .mark m =>
    if m == "??" then some 2
    else if m == "||" then some 3
    else if m == "&&" then some 4
    else if m == "|" then some 5
    else if m == "^" then some 6
    else if m == "&" then some 7
    else if ["==", "!=", "===", "!=="].contains m then some 8
    else if ["<", ">", "<=", ">="].contains m then some 9
    else if ["<<", ">>", ">>>"].contains m then some 10
    else if m == "+" || m == "-" then some 11
    else if m == "*" || m == "/" || m == "%" then some 12
    else if m == "**" then some 13
    else .none
  | .word w _ =>
    if w == "in" || w == "instanceof" || w == "as" || w == "satisfies" then some 9 else .none
  | _ => .none

def Token.isOperator (t : Token) : Bool :=
  t.level.isSome && !t.isWord "as" && !t.isWord "satisfies"

namespace Reader

/-- The token after the current one. -/
def peek : Reader Cursor := return (← get).next

/-- A test on the token after the current one. -/
def peekIs (f : Token → Bool) : Reader Bool := return f (← peek).token

/-- The token after the current one is this mark. -/
def peekMark (m : String) : Reader Bool := peekIs (· = .mark m)

def anyWord : Reader String := do
  match ← token with
  | .word t _ => advance; return t
  | _ => fail

def dottedName : Reader (List String) :=
  return (← anyWord) :: (← collect (afterMark "." anyWord))

/-- Notes a fault where `yield` or `await` is an operator. -/
def checkName (t : String) : Reader Unit := do
  faultIf (t == "await" && (← allowed (·.inAsync)))
  faultIf (t == "yield" && (← allowed (·.inGenerator)))

def bindingName : Reader String := do
  let t ← token
  require t.isBinding
  match t with
  | .word w _ => checkName w; advance; return w
  | _ => fail

def reference : Reader Expr := do
  let start ← start
  let name ← bindingName
  return .ident (← spanFrom start) name

def isName : Reader Bool := return (← token).isName

def isBinding : Reader Bool := return (← token).isBinding

end Reader

/-! ### Modifiers -/

def followsModifier : Reader Bool := do
  match ← token with
  | .privateName _ => return true
  | .mark m => return ["[", "\x7b", "*", "..."].contains m
  | t => return t.isPropertyName

def followsDefault : Reader Bool := do
  if ← isWordIn ["class", "function", "interface"] then return true
  if ← isMark "@" then return true
  let next ← peek
  return !next.newline && (((← isWord "abstract") && next.token.isWord "class") ||
    ((← isWord "async") && next.token.isWord "function"))

/-- The current token can follow `export` as a modifier. -/
def followsExport : Reader Bool := do
  if ← isMark "@" then return true
  if ← isMarkIn ["*", "\x7b"] then return false
  if ← isWord "as" then return false
  followsModifier

/-- The current word stands as a modifier: what follows can follow it. -/
def standsAsModifier : Reader Bool := Reader.test do
  if ← isWord "const" then
    advance
    return ← isWord "enum"
  if ← isWord "export" then
    advance
    if ← isWord "default" then
      advance
      return ← followsDefault
    if ← isWord "type" then advance
    return ← followsExport
  if ← isWord "default" then
    advance
    return ← followsDefault
  if ← isWordIn ["static", "get", "set"] then
    advance
    return ← followsModifier
  advance
  return !(← onNewLine) && (← followsModifier)

/-- A modifier if one stands here. `constAllowed` takes `const` for one, `classBody` leaves a
static block alone. -/
def modifier? (constAllowed classBody seenStatic : Bool) : Reader (Option String) := do
  match ← token with
  | .word w _ =>
    if !modifierWords.contains w then return none
    if w == "const" then
      if !constAllowed then return none
      let ok ← Reader.test do
        advance
        return !(← onNewLine) && (← followsModifier)
      if !ok then return none
    else if w == "static" && classBody && (← peekMark "\x7b") then return none
    else if w == "static" && seenStatic then return none
    else if !(← standsAsModifier) then return none
    advanceKeyword
    return some w
  | _ => return none

def accessWords : List String := ["public", "private", "protected"]

/-- The modifiers that may not stand before a modifier. -/
def notBefore (w : String) : List String :=
  if accessWords.contains w then
    accessWords ++ ["override", "static", "readonly", "async", "accessor"]
  else if w == "static" then ["static", "readonly", "async", "override", "accessor"]
  else if w == "override" then ["override", "readonly", "async", "accessor"]
  else if w == "abstract" then ["abstract", "override"]
  else [w]

/-- The modifiers in front of something, with a fault for a wrong order. -/
def modifiers (constAllowed classBody : Bool) : Reader (List String) := do
  iterate (fun (seen : List String) => do
    match ← modifier? constAllowed classBody (seen.contains "static") with
    | some w =>
      faultIf ((notBefore w).any seen.contains)
      return (seen ++ [w], true)
    | none => return (seen, false)) []

def onlyModifiers (ok : List String) (found : List String) : Reader Unit :=
  faultIf (found.any fun w => !ok.contains w)

/-- A word such as `get` if a member name follows it. -/
def contextualWord (w : String) : Reader Bool := do
  if (← isWord w) && (← standsAsModifier) then
    advanceKeyword
    return true
  return false

end Componentry.Script
